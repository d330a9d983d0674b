import Disvm.CaseTables
import Disvm.StringCompare

/-!
# Case tables of strings

The instruction `casec` compares a string with the ends of each entry of a table, and goes
to the program counter of the first entry that it takes the string for an end of.
-/

namespace Disvm.Strings

open ByteMemory CaseTables

/-- `at_val`: the pointer stored at an address, nil for a zero. -/
def atVal (memory : Memory) (address : ℕ) : Option ℕ :=
  if readWord memory address = 0 then none else some (readWord memory address)

/-- The loop over the entries, with the target found so far. -/
def casecLoop (values : StringValues) (memory : Memory) (value : Option ℕ) :
    ℕ → ℕ → Word → Word
  | 0, _, targetPc => targetPc
  | entries + 1, entry, targetPc =>
      let next := casecLoop values memory value entries (entry + 12) targetPc
      let pc := readInt memory (entry + 8)
      let result := compare values value (atVal memory entry)
      if result ≠ 0 then
        if result < 0 then next
        else
          match atVal memory (entry + 4) with
          | none => next
          | some high => if compare values value (some high) ≠ 0 then next else pc
      else pc

def entryCount (memory : Memory) (table : ℕ) : ℤ :=
  (readInt memory table).toInt

/-- The fallback is after all entries. -/
def fallbackPc (memory : Memory) (table : ℕ) : Word :=
  readInt memory (table + 4 * (1 + entryCount memory table * 3)).toNat

/-- The next program counter.  The assertions are not part of it. -/
def casec (values : StringValues) (memory : Memory) (value : Option ℕ) (table : ℕ) : Word :=
  casecLoop values memory value (entryCount memory table).toNat (table + 4)
    (fallbackPc memory table)

/-- An entry: a single string or, with a high end, an inclusive range. -/
structure StringLabel where
  low : Option ℕ
  high : Option ℕ
  pc : Word
  deriving DecidableEq, Repr

def labelAt (memory : Memory) (entry : ℕ) : StringLabel where
  low := atVal memory entry
  high := atVal memory (entry + 4)
  pc := readInt memory (entry + 8)

def labelsFrom (memory : Memory) : ℕ → ℕ → List StringLabel
  | 0, _ => []
  | entries + 1, entry => labelAt memory entry :: labelsFrom memory entries (entry + 12)

/-- The entries of a table. -/
def labels (memory : Memory) (table : ℕ) : List StringLabel :=
  labelsFrom memory (entryCount memory table).toNat (table + 4)

section Labels

variable (values : StringValues)

/-- The end of an entry. -/
def StringLabel.last (lab : StringLabel) : List ℕ :=
  runesAt values (lab.high.orElse fun _ => lab.low)

def StringLabel.Contains (lab : StringLabel) (value : Option ℕ) : Prop :=
  runesAt values lab.low ≤ runesAt values value ∧ runesAt values value ≤ lab.last values

/-- The value is in a range, but not one of its ends. -/
def StringLabel.StrictlyContains (lab : StringLabel) (value : Option ℕ) : Prop :=
  runesAt values lab.low < runesAt values value ∧ runesAt values value < lab.last values

end Labels

/-- A table whose entries are ordered and disjoint. -/
structure StringTable (values : StringValues) where
  memory : Memory
  address : ℕ
  counted : 0 ≤ entryCount memory address
  ranges : ∀ lab ∈ labels memory address, runesAt values lab.low ≤ lab.last values
  ascending : (labels memory address).Pairwise fun first second =>
    first.last values < runesAt values second.low

namespace StringTable

variable {values : StringValues}

def entries (t : StringTable values) : List StringLabel :=
  labels t.memory t.address

def fallback (t : StringTable values) : Word :=
  fallbackPc t.memory t.address

/-- Control goes to the entry that contains the value, and to the fallback where none
does. -/
def GoesTo (t : StringTable values) (value : Option ℕ) (pc : Word) : Prop :=
  (∀ lab ∈ t.entries, lab.Contains values value → pc = lab.pc) ∧
    ((∀ lab ∈ t.entries, ¬ lab.Contains values value) → pc = t.fallback)

/-- Only one entry contains a value. -/
theorem contains_unique (t : StringTable values) {value : Option ℕ} {first second : StringLabel}
    (firstIn : first ∈ t.entries) (secondIn : second ∈ t.entries)
    (inFirst : first.Contains values value) (inSecond : second.Contains values value) :
    first = second := by
  have apart : ∀ {one other : StringLabel}, one.last values < runesAt values other.low →
      one.Contains values value → ¬ other.Contains values value :=
    fun before inOne inOther => absurd (le_trans inOther.1 inOne.2) (not_le.mpr before)
  exact unique_of_ascending t.ascending apart firstIn secondIn inFirst inSecond

end StringTable

section Taken

variable (values : StringValues) (s1 s2 : Option ℕ)

/-- Neither string is stored in bytes. -/
def BothInRunes : Prop :=
  (stringAt values s1).characterSize ≠ charSize ∧ (stringAt values s2).characterSize ≠ charSize

/-- The first bytes of both strings are the same, as many as that. -/
def SameBytes (count : ℕ) : Prop :=
  ∀ place < count, (stringAt values s1).byte place = (stringAt values s2).byte place

/-- Strings are taken for equal that have the same runes.  When both are stored in runes it
is their length that must be the same, and as many bytes as they have runes. -/
def TakenForEqual : Prop :=
  (BothInRunes values s1 s2 → (stringAt values s1).length = (stringAt values s2).length ∧
    SameBytes values s1 s2 (stringAt values s1).length) ∧
  (¬ BothInRunes values s1 s2 → runesAt values s1 = runesAt values s2)

/-- A string is taken for greater that is greater by its runes, and when both are stored in
runes by the first byte that differs or else by its length. -/
def TakenForGreater : Prop :=
  (BothInRunes values s1 s2 →
    (∃ place < min (stringAt values s1).length (stringAt values s2).length,
      SameBytes values s1 s2 place ∧
        (stringAt values s2).byte place < (stringAt values s1).byte place) ∨
    (SameBytes values s1 s2 (min (stringAt values s1).length (stringAt values s2).length) ∧
      (stringAt values s2).length < (stringAt values s1).length)) ∧
  (¬ BothInRunes values s1 s2 → runesAt values s2 < runesAt values s1)

variable {values s1 s2}

theorem comparable_of_not_bothInRunes (notBoth : ¬ BothInRunes values s1 s2) :
    Comparable values s1 s2 := by
  unfold BothInRunes at notBoth
  unfold Comparable
  tauto

theorem compare_of_bothInRunes (both : BothInRunes values s1 s2) (different : s1 ≠ s2) :
    compare values s1 s2 =
      let result := memcmp (stringAt values s1).byte (stringAt values s2).byte
        (min (stringAt values s1).length (stringAt values s2).length)
      if result ≠ 0 then result
      else ((stringAt values s1).length : ℤ) - (stringAt values s2).length := by
  have isCase : scenario (stringAt values s1) (stringAt values s2) = .runeRune := by
    rw [scenario, if_neg both.1, if_neg both.2]
  unfold compare
  rw [if_neg different]
  simp only [isCase]

/-- Bytes are the same up to a count, or there is a first place before it where they
differ. -/
theorem sameBytes_or_difference (values : StringValues) (s1 s2 : Option ℕ) (count : ℕ) :
    SameBytes values s1 s2 count ∨
    ∃ place < count, SameBytes values s1 s2 place ∧
      (stringAt values s1).byte place ≠ (stringAt values s2).byte place := by
  induction count with
  | zero => exact Or.inl fun place before => absurd before (Nat.not_lt_zero place)
  | succ count ih =>
      rcases ih with same | ⟨place, before, found⟩
      · by_cases here : (stringAt values s1).byte count = (stringAt values s2).byte count
        · left
          intro place before
          rcases Nat.lt_succ_iff_lt_or_eq.mp before with earlier | rfl
          · exact same place earlier
          · exact here
        · exact Or.inr ⟨count, Nat.lt_succ_self count, same, here⟩
      · exact Or.inr ⟨place, Nat.lt_succ_of_lt before, found⟩

theorem memcmp_same {count : ℕ} (same : SameBytes values s1 s2 count) :
    memcmp (stringAt values s1).byte (stringAt values s2).byte count = 0 :=
  scan_same fun place _ before => same place (by omega)

theorem memcmp_difference {count place : ℕ} (before : place < count)
    (same : SameBytes values s1 s2 place)
    (different : (stringAt values s1).byte place ≠ (stringAt values s2).byte place) :
    memcmp (stringAt values s1).byte (stringAt values s2).byte count =
      ((stringAt values s1).byte place : ℤ) - (stringAt values s2).byte place :=
  scan_at (Nat.zero_le place) (by omega) (fun earlier _ isEarlier => same earlier isEarlier)
    different

theorem sameBytes_self (count : ℕ) : SameBytes values s1 s1 count :=
  fun _ _ => rfl

/-- Two strings in runes: their result is what they are taken for. -/
theorem compare_taken_of_bothInRunes (both : BothInRunes values s1 s2) :
    (compare values s1 s2 = 0 ↔ (stringAt values s1).length = (stringAt values s2).length ∧
      SameBytes values s1 s2 (stringAt values s1).length) ∧
    (0 < compare values s1 s2 ↔
      (∃ place < min (stringAt values s1).length (stringAt values s2).length,
        SameBytes values s1 s2 place ∧
          (stringAt values s2).byte place < (stringAt values s1).byte place) ∨
      (SameBytes values s1 s2 (min (stringAt values s1).length (stringAt values s2).length) ∧
        (stringAt values s2).length < (stringAt values s1).length)) := by
  by_cases isSame : s1 = s2
  · subst isSame
    have isZero : compare values s1 s1 = 0 := by
      unfold compare
      exact if_pos rfl
    rw [isZero]
    constructor
    · exact iff_of_true rfl ⟨rfl, sameBytes_self _⟩
    · apply iff_of_false (lt_irrefl 0)
      rintro (⟨place, _, _, less⟩ | ⟨_, less⟩)
      · exact lt_irrefl _ less
      · exact lt_irrefl _ less
  · rw [compare_of_bothInRunes both isSame]
    rcases sameBytes_or_difference values s1 s2
      (min (stringAt values s1).length (stringAt values s2).length) with
        same | ⟨place, before, same, different⟩
    · rw [memcmp_same same]
      dsimp only
      rw [if_neg (not_not.mpr rfl)]
      constructor
      · constructor
        · intro zero
          have sameLength : (stringAt values s1).length = (stringAt values s2).length := by omega
          rw [← sameLength, min_self] at same
          exact ⟨sameLength, same⟩
        · intro taken
          have sameLength := taken.1
          omega
      · constructor
        · intro positive
          exact Or.inr ⟨same, by omega⟩
        · rintro (⟨place, before, _, less⟩ | ⟨_, less⟩)
          · exact absurd (same place before) (Nat.ne_of_gt less)
          · omega
    · rw [memcmp_difference before same different]
      dsimp only
      rw [if_pos (by omega)]
      constructor
      · constructor
        · intro zero
          omega
        · rintro ⟨_, sameAll⟩
          exact absurd (sameAll place (by omega)) different
      · constructor
        · intro positive
          exact Or.inl ⟨place, before, same, by omega⟩
        · rintro (⟨other, otherBefore, sameOther, less⟩ | ⟨sameAll, _⟩)
          · rcases lt_trichotomy place other with earlier | rfl | later
            · exact absurd (sameOther place earlier) different
            · omega
            · exact absurd (same other later) (Nat.ne_of_gt less)
          · exact absurd (sameAll place before) different

theorem compare_eq_zero_iff : compare values s1 s2 = 0 ↔ TakenForEqual values s1 s2 := by
  by_cases both : BothInRunes values s1 s2
  · rw [(compare_taken_of_bothInRunes both).1]
    exact ⟨fun taken => ⟨fun _ => taken, fun notBoth => absurd both notBoth⟩,
      fun taken => taken.1 both⟩
  · have agrees := ((comparesRunes_iff values s1 s2).mpr
      (comparable_of_not_bothInRunes both)).agrees
    rw [agrees.zero]
    exact ⟨fun same => ⟨fun isBoth => absurd isBoth both, fun _ => same⟩,
      fun taken => taken.2 both⟩

theorem compare_pos_iff : 0 < compare values s1 s2 ↔ TakenForGreater values s1 s2 := by
  by_cases both : BothInRunes values s1 s2
  · rw [(compare_taken_of_bothInRunes both).2]
    exact ⟨fun taken => ⟨fun _ => taken, fun notBoth => absurd both notBoth⟩,
      fun taken => taken.1 both⟩
  · have agrees := ((comparesRunes_iff values s1 s2).mpr
      (comparable_of_not_bothInRunes both)).agrees
    rw [agrees.positive]
    exact ⟨fun less => ⟨fun isBoth => absurd isBoth both, fun _ => less⟩,
      fun taken => taken.2 both⟩

/-- Equal strings are taken for equal. -/
theorem compare_eq_zero_of_runes (same : runesAt values s1 = runesAt values s2) :
    compare values s1 s2 = 0 := by
  rw [compare_eq_zero_iff]
  refine ⟨fun both => ?_, fun _ => same⟩
  have runes1 := characterSize_of_ne (wellFormed_stringAt values s1) both.1
  have runes2 := characterSize_of_ne (wellFormed_stringAt values s2) both.2
  have sameLength : (stringAt values s1).length = (stringAt values s2).length := by
    rw [← length_runes, ← length_runes]
    exact congrArg List.length same
  refine ⟨sameLength, fun place inside => ?_⟩
  apply bytes_same runes1 runes2 (stringAt values s1).length
  · intro index indexInside
    have isPrefix : (stringAt values s1).runes <+: (stringAt values s2).runes :=
      (show (stringAt values s1).runes = (stringAt values s2).runes from same) ▸ List.prefix_rfl
    exact chars_same (Or.inl isPrefix) (by omega)
  · unfold runeSize
    omega

end Taken

section Selection

variable {values : StringValues}

/-- The value is taken for an end of the entry. -/
def StringLabel.IsMet (values : StringValues) (lab : StringLabel) (value : Option ℕ) : Prop :=
  TakenForEqual values value lab.low ∨
    (TakenForGreater values value lab.low ∧
      ∃ high, lab.high = some high ∧ TakenForEqual values value (some high))

/-- The comparisons of the loop for an entry. -/
def StringLabel.matches (values : StringValues) (value : Option ℕ) (lab : StringLabel) : Bool :=
  compare values value lab.low = 0 ∨
    (0 < compare values value lab.low ∧
      (match lab.high with
        | none => false
        | some high => compare values value (some high) = 0) = true)

theorem StringLabel.matches_iff (lab : StringLabel) (value : Option ℕ) :
    lab.matches values value ↔ lab.IsMet values value := by
  unfold StringLabel.matches StringLabel.IsMet
  rw [decide_eq_true_iff, compare_eq_zero_iff, compare_pos_iff]
  cases lab.high with
  | none => simp
  | some high => simp [compare_eq_zero_iff]

/-- One turn of the loop. -/
theorem casecLoop_succ (memory : Memory) (value : Option ℕ) (entries entry : ℕ)
    (targetPc : Word) :
    casecLoop values memory value (entries + 1) entry targetPc =
      if (labelAt memory entry).matches values value then (labelAt memory entry).pc
      else casecLoop values memory value entries (entry + 12) targetPc := by
  rw [casecLoop]
  unfold StringLabel.matches labelAt
  dsimp only
  by_cases zero : compare values value (atVal memory entry) = 0
  · rw [if_neg (not_not.mpr zero), if_pos (decide_eq_true (Or.inl zero))]
  · rw [if_pos zero]
    by_cases negative : compare values value (atVal memory entry) < 0
    · rw [if_pos negative, if_neg]
      rw [decide_eq_true_iff]
      omega
    · have positive : 0 < compare values value (atVal memory entry) := by omega
      rw [if_neg negative]
      cases isNil : atVal memory (entry + 4) with
      | none => simp [zero]
      | some high =>
          by_cases isHigh : compare values value (some high) = 0
          · simp [positive, isHigh]
          · simp [zero, isHigh]

theorem casecLoop_eq (memory : Memory) (value : Option ℕ) (entries entry : ℕ) (targetPc : Word) :
    casecLoop values memory value entries entry targetPc =
      (((labelsFrom memory entries entry).find? (StringLabel.matches values value)).map
        StringLabel.pc).getD targetPc := by
  induction entries generalizing entry with
  | zero => rfl
  | succ entries ih =>
      rw [casecLoop_succ, labelsFrom, List.find?_cons, ih]
      cases StringLabel.matches values value (labelAt memory entry) with
      | true => rfl
      | false => rfl

namespace StringTable

/-- The first entry that the value is taken for an end of contains it, or has the target of
the value; and where there is no such entry, one that contains the value has the target of
the fallback. -/
structure Selects (t : StringTable values) (value : Option ℕ) : Prop where
  first : ∀ before lab after, t.entries = before ++ lab :: after →
    lab.IsMet values value → (∀ earlier ∈ before, ¬ earlier.IsMet values value) →
      ¬ lab.Contains values value → t.GoesTo value lab.pc
  none : (∀ lab ∈ t.entries, ¬ lab.IsMet values value) →
    ∀ lab ∈ t.entries, lab.Contains values value → lab.pc = t.fallback

theorem goesTo_pc (t : StringTable values) {value : Option ℕ} {lab : StringLabel}
    (member : lab ∈ t.entries) (contains : lab.Contains values value) :
    t.GoesTo value lab.pc := by
  constructor
  · intro other otherIn inOther
    rw [t.contains_unique otherIn member inOther contains]
  · intro none
    exact absurd contains (none lab member)

theorem goesTo_casec_iff (t : StringTable values) (value : Option ℕ) :
    t.GoesTo value (casec values t.memory value t.address) ↔ t.Selects value := by
  have selected : casec values t.memory value t.address =
      ((t.entries.find? (StringLabel.matches values value)).map StringLabel.pc).getD t.fallback :=
    casecLoop_eq t.memory value _ _ _
  rw [selected]
  cases found : t.entries.find? (StringLabel.matches values value) with
  | some lab =>
      obtain ⟨isMatch, before, after, split, unmatched⟩ := List.find?_eq_some_iff_append.mp found
      have member := List.mem_of_find?_eq_some found
      have isMet := (lab.matches_iff value).mp isMatch
      have unmet : ∀ earlier ∈ before, ¬ earlier.IsMet values value := by
        intro earlier isEarlier earlierMet
        have earlierMatch := (earlier.matches_iff value).mpr earlierMet
        simpa [earlierMatch] using unmatched earlier isEarlier
      constructor
      · intro goes
        constructor
        · intro otherBefore other otherAfter otherSplit otherMet otherUnmet _
          have otherFound : t.entries.find? (StringLabel.matches values value) = some other := by
            rw [List.find?_eq_some_iff_append]
            refine ⟨(other.matches_iff value).mpr otherMet, otherBefore, otherAfter, otherSplit, ?_⟩
            intro earlier isEarlier
            rw [Bool.not_eq_true', Bool.eq_false_iff]
            exact fun isMatch => otherUnmet earlier isEarlier
              ((earlier.matches_iff value).mp isMatch)
          obtain rfl := Option.some.inj (otherFound.symm.trans found)
          exact goes
        · intro noneMet
          exact absurd isMet (noneMet lab member)
      · intro selects
        by_cases contains : lab.Contains values value
        · exact t.goesTo_pc member contains
        · exact selects.first before lab after split isMet unmet contains
  | none =>
      have unmatched := List.find?_eq_none.mp found
      have unmet : ∀ lab ∈ t.entries, ¬ lab.IsMet values value := fun lab member isMet =>
        unmatched lab member ((lab.matches_iff value).mpr isMet)
      constructor
      · intro goes
        constructor
        · intro before lab after split isMet _ _
          exact absurd isMet (unmet lab (by rw [split]; simp))
        · intro _ lab member contains
          exact (goes.1 lab member contains).symm
      · intro selects
        constructor
        · intro lab member contains
          exact (selects.none unmet lab member contains).symm
        · intro _
          rfl

/-- The ends of all entries compare with the value as their runes do. -/
def ComparableEnds (t : StringTable values) (value : Option ℕ) : Prop :=
  ∀ lab ∈ t.entries, Comparable values value lab.low ∧ Comparable values value lab.high

theorem isMet_iff_of_comparable {lab : StringLabel} {value : Option ℕ}
    (low : Comparable values value lab.low) (high : Comparable values value lab.high)
    (range : runesAt values lab.low ≤ lab.last values) :
    lab.IsMet values value ↔ lab.Contains values value ∧ ¬ lab.StrictlyContains values value := by
  have lowAgrees := ((comparesRunes_iff values value lab.low).mpr low).agrees
  have highAgrees := ((comparesRunes_iff values value lab.high).mpr high).agrees
  unfold StringLabel.IsMet StringLabel.Contains StringLabel.StrictlyContains
  unfold StringLabel.last at range ⊢
  rw [← compare_eq_zero_iff, ← compare_pos_iff, lowAgrees.zero, lowAgrees.positive]
  cases isHigh : lab.high with
  | none =>
      rw [isHigh] at range
      simp only [Option.orElse_none, reduceCtorEq, false_and, exists_false, and_false, or_false]
      constructor
      · intro same
        rw [same]
        exact ⟨⟨le_rfl, le_rfl⟩, fun strict => lt_irrefl _ strict.1⟩
      · intro contained
        exact le_antisymm contained.1.2 contained.1.1
  | some high =>
      rw [isHigh] at range highAgrees
      simp only [Option.orElse_some, Option.some.injEq, exists_eq_left', ← compare_eq_zero_iff]
        at range ⊢
      rw [highAgrees.zero]
      constructor
      · rintro (same | ⟨above, same⟩)
        · rw [same]
          exact ⟨⟨le_rfl, range⟩, fun strict => lt_irrefl _ strict.1⟩
        · rw [same]
          exact ⟨⟨range, le_rfl⟩, fun strict => lt_irrefl _ strict.2⟩
      · rintro ⟨⟨above, below⟩, notStrict⟩
        rcases above.lt_or_eq with less | same
        · exact Or.inr ⟨less, le_antisymm below (not_lt.mp fun strict => notStrict ⟨less, strict⟩)⟩
        · exact Or.inl same.symm

/-- Where the ends compare as their runes do it is the values strictly within a range that
are not found. -/
theorem selects_iff_of_comparable (t : StringTable values) {value : Option ℕ}
    (comparable : t.ComparableEnds value) :
    t.Selects value ↔
      ∀ lab ∈ t.entries, lab.StrictlyContains values value → lab.pc = t.fallback := by
  have isMet_iff : ∀ lab ∈ t.entries, lab.IsMet values value ↔
      lab.Contains values value ∧ ¬ lab.StrictlyContains values value := fun lab member =>
    isMet_iff_of_comparable (comparable lab member).1 (comparable lab member).2
      (t.ranges lab member)
  constructor
  · intro selects lab member strict
    have contains : lab.Contains values value := ⟨le_of_lt strict.1, le_of_lt strict.2⟩
    apply selects.none _ lab member contains
    intro other otherIn otherMet
    obtain ⟨otherContains, notStrict⟩ := (isMet_iff other otherIn).mp otherMet
    rw [t.contains_unique otherIn member otherContains contains] at notStrict
    exact notStrict strict
  · intro strictWild
    constructor
    · intro before lab after split isMet _ notContains
      exact absurd ((isMet_iff lab (by rw [split]; simp)).mp isMet).1 notContains
    · intro unmet lab member contains
      apply strictWild lab member
      by_contra notStrict
      exact unmet lab member ((isMet_iff lab member).mpr ⟨contains, notStrict⟩)

end StringTable

end Selection

/-- The instruction goes to the right entry exactly when the first entry it takes the value
for an end of is right.  Where the strings compare as their runes do, that is for the values
that are not strictly within a range. -/
theorem casec_goesTo_iff (values : StringValues) (t : StringTable values) (value : Option ℕ) :
    (t.GoesTo value (casec values t.memory value t.address) ↔ t.Selects value) ∧
      (t.ComparableEnds value →
        (t.GoesTo value (casec values t.memory value t.address) ↔
          ∀ lab ∈ t.entries, lab.StrictlyContains values value → lab.pc = t.fallback)) := by
  have exactly := t.goesTo_casec_iff value
  exact ⟨exactly, fun comparable => exactly.trans (t.selects_iff_of_comparable comparable)⟩

/-- The strings a, b and c. -/
def letters : StringValues
  | 0 | 1 => oneRune 97 (by decide)
  | 2 => oneRune 98 (by decide)
  | _ + 3 => oneRune 99 (by decide)

/-- A table at 0 for the range from a to c, with 7 as its target and 9 as the fallback. -/
def rangeMemory : Memory :=
  disint 16 9#32 (disint 12 7#32 (disint 8 3#32 (disint 4 1#32 (disint 0 1#32 fun _ => 0))))

theorem labels_rangeMemory : labels rangeMemory 0 = [⟨some 1, some 3, 7#32⟩] := by
  decide +kernel

def rangeTable : StringTable letters where
  memory := rangeMemory
  address := 0
  counted := by decide +kernel
  ranges := by
    rw [labels_rangeMemory]
    intro lab member
    obtain rfl := List.mem_singleton.mp member
    decide
  ascending := by
    rw [labels_rangeMemory]
    exact List.pairwise_singleton _ _

theorem casec_goesTo_end :
    rangeTable.GoesTo (some 3) (casec letters rangeTable.memory (some 3) rangeTable.address) := by
  have comparable : rangeTable.ComparableEnds (some 3) :=
    fun _ _ => ⟨Or.inl (by decide), Or.inl (by decide)⟩
  apply ((casec_goesTo_iff letters rangeTable (some 3)).2 comparable).mpr
  intro lab member strict
  have isRange : lab ∈ [(⟨some 1, some 3, 7#32⟩ : StringLabel)] := by
    rw [← labels_rangeMemory]
    exact member
  obtain rfl := List.mem_singleton.mp isRange
  exact absurd strict.2 (by decide)

/-- The string b is in the range from a to c, but control goes to the fallback. -/
theorem within_range_lost :
    ¬ rangeTable.GoesTo (some 2)
      (casec letters rangeTable.memory (some 2) rangeTable.address) := by
  intro goes
  have member : (⟨some 1, some 3, 7#32⟩ : StringLabel) ∈ rangeTable.entries := by
    unfold StringTable.entries
    rw [show labels rangeTable.memory rangeTable.address = _ from labels_rangeMemory]
    exact List.mem_singleton.mpr rfl
  have wrong := goes.1 _ member ⟨by decide, by decide⟩
  revert wrong
  decide +kernel

end Disvm.Strings
