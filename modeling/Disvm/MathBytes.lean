import Mathlib.Data.BitVec
import Mathlib.Data.List.Basic

/-!
# Numbers as bytes

The `math` module writes arrays of integers and of reals into an array of bytes, the high byte
of a number first, and reads them back.
-/

namespace Disvm.MathBytes

abbrev Byte := BitVec 8

abbrev Word := BitVec 32

/-- The bits of a real. -/
abbrev RealBits := BitVec 64

/-- What an operation throws, and its destination after it. -/
structure Outcome (α : Type) where
  thrown : Option String
  array : List α
  deriving DecidableEq

def invalidBufferSize : String := "Invalid buffer size based on conversion"

/-- A number of bytes as a `size_t`. -/
def asSize (bytes : ℕ) : ℕ :=
  bytes % 2 ^ 32

/-- `base[0]`, `base[1]` and so on are set. -/
def storeBytes (buffer : List Byte) (base : ℕ) : List Byte → List Byte
  | [] => buffer
  | byte :: rest => storeBytes (buffer.set base byte) (base + 1) rest

section Conversion

variable {bits : ℕ}

/-- The loop of the two exports from an index on. -/
def exportLoop (toBytes : BitVec bits → List Byte) (size : ℕ) :
    List (BitVec bits) → (i : ℕ) → List Byte → List Byte
  | [], _, buffer => buffer
  | x :: values, i, buffer =>
      exportLoop toBytes size values (i + 1) (storeBytes buffer (i * size) (toBytes x))

def exportValues (toBytes : BitVec bits → List Byte) (size : ℕ) (buffer : List Byte)
    (values : List (BitVec bits)) : Outcome Byte :=
  if asSize buffer.length ≠ asSize (size * values.length) then ⟨some invalidBufferSize, buffer⟩
  else ⟨none, exportLoop toBytes size values 0 buffer⟩

/-- `t = (t << 8) | buffer[j]`. -/
def shiftIn (buffer : List Byte) (t : BitVec bits) (j : ℕ) : BitVec bits :=
  t <<< 8 ||| (buffer.getD j 0).setWidth bits

/-- The loop over `j`. -/
def importValue (size : ℕ) (buffer : List Byte) : BitVec bits :=
  (List.range' 1 (size - 1)).foldl (shiftIn buffer) ((buffer.getD 0 0).setWidth bits)

/-- The loop of the two imports; the bytes read are the same for all `i`. -/
def importLoop (size : ℕ) (buffer : List Byte) (result : List (BitVec bits)) :
    List (BitVec bits) :=
  (List.range result.length).foldl (fun result i => result.set i (importValue size buffer)) result

def importValues (size : ℕ) (buffer : List Byte) (result : List (BitVec bits)) :
    Outcome (BitVec bits) :=
  if asSize buffer.length ≠ asSize (size * result.length) then ⟨some invalidBufferSize, result⟩
  else ⟨none, importLoop size buffer result⟩

end Conversion

def intBytes (x : Word) : List Byte :=
  [(x.sshiftRight 24).setWidth 8, (x.sshiftRight 16).setWidth 8, (x.sshiftRight 8).setWidth 8,
    x.setWidth 8]

def realBytes (t : RealBits) : List Byte :=
  [(t >>> 56).setWidth 8, (t >>> 48).setWidth 8, (t >>> 40).setWidth 8, (t >>> 32).setWidth 8,
    (t >>> 24).setWidth 8, (t >>> 16).setWidth 8, (t >>> 8).setWidth 8, t.setWidth 8]

def mathExportInt (b : List Byte) (x : List Word) : Outcome Byte :=
  exportValues intBytes 4 b x

def mathExportReal (b : List Byte) (x : List RealBits) : Outcome Byte :=
  exportValues realBytes 8 b x

def mathImportInt (b : List Byte) (x : List Word) : Outcome Word :=
  importValues 4 b x

def mathImportReal (b : List Byte) (x : List RealBits) : Outcome RealBits :=
  importValues 8 b x

section Law

variable {α : Type}

/-- An import undoes an export, and other lengths are refused. -/
structure ImportUndoes (exporting : List Byte → List α → Outcome Byte)
    (importing : List Byte → List α → Outcome α) (size : ℕ) (b : List Byte) (x y : List α) :
    Prop where
  undone : b.length = size * x.length → y.length = x.length →
    (exporting b x).thrown = none ∧ importing (exporting b x).array y = ⟨none, x⟩
  exportRefused : b.length ≠ size * x.length →
    (exporting b x).thrown.isSome ∧ (exporting b x).array = b
  importRefused : b.length ≠ size * y.length →
    (importing b y).thrown.isSome ∧ (importing b y).array = y

/-- The comparison of sizes tells whether the array has a length. -/
def Told (size : ℕ) (b : List Byte) (length : ℕ) : Prop :=
  asSize b.length = asSize (size * length) → b.length = size * length

/-- All numbers are the same if they are exported and imported, and sizes that are the same as
a `size_t` are the same. -/
structure Repeated (size : ℕ) (b : List Byte) (x y : List α) : Prop where
  same : b.length = size * x.length → y.length = x.length →
    ∀ value ∈ x, ∀ other ∈ x, value = other
  toldExport : Told size b x.length
  toldImport : Told size b y.length

end Law

section Number

variable {bits : ℕ}

/-- The bytes of a number, from the one at a place on. -/
def bigEndian (x : BitVec bits) : ℕ → List Byte
  | 0 => []
  | place + 1 => (x >>> (8 * place)).setWidth 8 :: bigEndian x place

theorem shift_next (x : BitVec bits) (place : ℕ) :
    (x >>> (8 * (place + 1))) <<< 8 ||| ((x >>> (8 * place)).setWidth 8).setWidth bits =
      x >>> (8 * place) := by
  apply BitVec.eq_of_getLsbD_eq
  intro bit inside
  by_cases low : bit < 8
  · simp [low, inside]
  · have place_eq : 8 * (place + 1) + (bit - 8) = 8 * place + bit := by omega
    simp [low, inside, place_eq]

/-- Nothing is above the first byte. -/
theorem shift_first (x : BitVec bits) (place : ℕ) (wide : bits = 8 * (place + 1)) :
    ((x >>> (8 * place)).setWidth 8).setWidth bits = x >>> (8 * place) := by
  apply BitVec.eq_of_getLsbD_eq
  intro bit inside
  by_cases low : bit < 8
  · simp [low, inside]
  · have above : x.getLsbD (8 * place + bit) = false := BitVec.getLsbD_of_ge _ _ (by omega)
    simp [low, above]

theorem getD_of_drop {buffer rest : List Byte} {byte : Byte} {j : ℕ}
    (isNext : buffer.drop j = byte :: rest) : buffer.getD j 0 = byte := by
  have isHead := congrArg List.head? isNext
  rw [List.head?_drop, List.head?_cons] at isHead
  rw [List.getD_eq_getElem?_getD, isHead]
  rfl

theorem foldl_shiftIn (x : BitVec bits) (rest : List Byte) {buffer : List Byte} {place j : ℕ}
    (isNext : buffer.drop j = bigEndian x place ++ rest) :
    (List.range' j place).foldl (shiftIn buffer) (x >>> (8 * place)) = x := by
  induction place generalizing j with
  | zero => exact BitVec.ushiftRight_zero _
  | succ place ih =>
      rw [bigEndian, List.cons_append] at isNext
      have isRest : buffer.drop (j + 1) = bigEndian x place ++ rest := by
        rw [← List.drop_drop, isNext]
        rfl
      rw [List.range'_succ, List.foldl_cons, shiftIn, getD_of_drop isNext, shift_next]
      exact ih isRest

/-- The bytes of a number are read as the number. -/
theorem importValue_bigEndian {size : ℕ} (x : BitVec bits) (wide : bits = 8 * size)
    (positive : 0 < size) (rest : List Byte) : importValue size (bigEndian x size ++ rest) = x := by
  obtain ⟨place, rfl⟩ := Nat.exists_eq_add_of_le' positive
  have isFirst : (bigEndian x (place + 1) ++ rest).drop 0 =
      (x >>> (8 * place)).setWidth 8 :: (bigEndian x place ++ rest) := rfl
  unfold importValue
  rw [getD_of_drop isFirst, shift_first x place wide]
  exact foldl_shiftIn x rest rfl

theorem setWidth_sshiftRight (x : Word) {shift : ℕ} (inside : shift + 8 ≤ 32) :
    (x.sshiftRight shift).setWidth 8 = (x >>> shift).setWidth 8 := by
  apply BitVec.eq_of_getLsbD_eq
  intro bit low
  have below : shift + bit < 32 := by omega
  simp [BitVec.getLsbD_sshiftRight, low, below]
  omega

/-- How numbers are written, with what the bytes are read as. -/
structure Format (bits size : ℕ) where
  toBytes : BitVec bits → List Byte
  length_toBytes : ∀ x, (toBytes x).length = size
  importValue_toBytes : ∀ x rest, importValue size (toBytes x ++ rest) = x

def intFormat : Format 32 4 where
  toBytes := intBytes
  length_toBytes _ := rfl
  importValue_toBytes x rest := by
    have isBigEndian : intBytes x = bigEndian x 4 := by
      unfold intBytes
      rw [setWidth_sshiftRight x (by decide), setWidth_sshiftRight x (by decide),
        setWidth_sshiftRight x (by decide)]
      simp [bigEndian]
    rw [isBigEndian]
    exact importValue_bigEndian x rfl (by decide) rest

def realFormat : Format 64 8 where
  toBytes := realBytes
  length_toBytes _ := rfl
  importValue_toBytes t rest := by
    have isBigEndian : realBytes t = bigEndian t 8 := by simp [realBytes, bigEndian]
    rw [isBigEndian]
    exact importValue_bigEndian t rfl (by decide) rest

end Number

theorem storeBytes_at (done old bytes rest : List Byte) (sameLength : old.length = bytes.length) :
    storeBytes (done ++ old ++ rest) done.length bytes = done ++ bytes ++ rest := by
  induction bytes generalizing done old with
  | nil => rw [List.length_eq_zero_iff.mp sameLength]; rfl
  | cons byte bytes ih =>
      obtain ⟨oldByte, old, rfl⟩ := List.exists_cons_of_length_eq_add_one sameLength
      have isSet : (done ++ oldByte :: old ++ rest).set done.length byte =
          done ++ [byte] ++ old ++ rest := by simp
      have isLength : done.length + 1 = (done ++ [byte]).length := by simp
      rw [storeBytes, isSet, isLength, ih _ old (Nat.succ_injective sameLength)]
      simp

section Run

variable {bits size : ℕ} (format : Format bits size)

theorem exportLoop_eq (values : List (BitVec bits)) {i : ℕ} (done rest : List Byte)
    (isDone : done.length = i * size) (isRest : rest.length = size * values.length) :
    exportLoop format.toBytes size values i (done ++ rest) =
      done ++ values.flatMap format.toBytes := by
  induction values generalizing i done rest with
  | nil =>
      rw [List.length_nil, Nat.mul_zero] at isRest
      rw [List.length_eq_zero_iff.mp isRest]
      rfl
  | cons x values ih =>
      rw [List.length_cons, Nat.mul_succ] at isRest
      have isOld : (rest.take size).length = (format.toBytes x).length := by
        rw [format.length_toBytes]
        exact List.length_take_of_le (by omega)
      have split : done ++ rest = done ++ rest.take size ++ rest.drop size := by
        rw [List.append_assoc, List.take_append_drop]
      rw [exportLoop, split, ← isDone, storeBytes_at _ _ _ _ isOld, ih, List.flatMap_cons,
        List.append_assoc]
      · rw [List.length_append, format.length_toBytes, isDone, Nat.succ_mul]
      · rw [List.length_drop]
        omega

theorem foldl_set {value : BitVec bits} (result : List (BitVec bits)) {count : ℕ}
    (inside : count ≤ result.length) :
    (List.range count).foldl (fun result i => result.set i value) result =
      List.replicate count value ++ result.drop count := by
  induction count with
  | zero => rfl
  | succ count ih =>
      have isDrop := List.drop_eq_getElem_cons (show count < result.length by omega)
      calc (List.range (count + 1)).foldl (fun result i => result.set i value) result
        _ = ((List.range count).foldl (fun result i => result.set i value) result).set
            count value := by
          rw [List.range_succ, List.foldl_append, List.foldl_cons, List.foldl_nil]
        _ = (List.replicate count value ++ result.drop count).set count value := by
          rw [ih (by omega)]
        _ = List.replicate count value ++ value :: result.drop (count + 1) := by
          rw [isDrop, List.set_append_right _ _ (by simp), List.length_replicate, Nat.sub_self,
            List.set_cons_zero]
        _ = List.replicate (count + 1) value ++ result.drop (count + 1) := by
          rw [List.replicate_succ', List.append_assoc]
          rfl

/-- Every element is the first number. -/
theorem importLoop_eq (buffer : List Byte) (result : List (BitVec bits)) :
    importLoop size buffer result = List.replicate result.length (importValue size buffer) := by
  unfold importLoop
  rw [foldl_set result le_rfl, List.drop_length, List.append_nil]

theorem replicate_eq_iff {first : BitVec bits} {rest : List (BitVec bits)} :
    List.replicate (first :: rest).length first = first :: rest ↔
      ∀ value ∈ first :: rest, ∀ other ∈ first :: rest, value = other := by
  constructor
  · intro same value member other otherMember
    rw [← same] at member otherMember
    exact (List.eq_of_mem_replicate member).trans (List.eq_of_mem_replicate otherMember).symm
  · intro same
    exact (List.eq_replicate_of_mem fun value member =>
      same value member first List.mem_cons_self).symm

theorem export_accepted {b : List Byte} {x : List (BitVec bits)}
    (sized : b.length = size * x.length) :
    exportValues format.toBytes size b x = ⟨none, x.flatMap format.toBytes⟩ := by
  have exported := exportLoop_eq format x [] b (Nat.zero_mul _).symm sized
  unfold exportValues
  rw [sized, if_neg (not_not_intro rfl)]
  exact congrArg _ exported

theorem import_accepted {b : List Byte} {y : List (BitVec bits)}
    (sized : b.length = size * y.length) :
    importValues size b y = ⟨none, List.replicate y.length (importValue size b)⟩ := by
  unfold importValues
  rw [sized, if_neg (not_not_intro rfl), importLoop_eq]

theorem undone_iff {b : List Byte} {x y : List (BitVec bits)} (sized : b.length = size * x.length)
    (sameLength : y.length = x.length) :
    (exportValues format.toBytes size b x).thrown = none ∧
        importValues size (exportValues format.toBytes size b x).array y = ⟨none, x⟩ ↔
      ∀ value ∈ x, ∀ other ∈ x, value = other := by
  have sizedBytes : (x.flatMap format.toBytes).length = size * y.length := by
    rw [List.length_flatMap, sameLength]
    simp [format.length_toBytes, Nat.mul_comm]
  rw [export_accepted format sized]
  dsimp only
  rw [and_iff_right rfl, import_accepted sizedBytes, sameLength, Outcome.mk.injEq,
    and_iff_right rfl]
  cases x with
  | nil => exact iff_of_true rfl (fun _ member => nomatch member)
  | cons first rest =>
      rw [List.flatMap_cons, format.importValue_toBytes]
      exact replicate_eq_iff

theorem refused_iff_told {α : Type} {outcome accepted : Outcome α} {b : List Byte} {length : ℕ}
    (array : List α) (isAccepted : accepted.thrown = none)
    (isOutcome : outcome = if asSize b.length ≠ asSize (size * length) then
      ⟨some invalidBufferSize, array⟩ else accepted) :
    (b.length ≠ size * length → outcome.thrown.isSome ∧ outcome.array = array) ↔
      Told size b length := by
  subst isOutcome
  unfold Told
  split_ifs with differs
  · exact iff_of_true (fun _ => ⟨rfl, rfl⟩) fun same => absurd same differs
  · rw [isAccepted, not_not] at *
    simp [differs]

/-- An import undoes an export when all numbers are the same. -/
theorem importUndoes_iff (b : List Byte) (x y : List (BitVec bits)) :
    ImportUndoes (exportValues format.toBytes size) (importValues size) size b x y ↔
      Repeated size b x y := by
  have toldExport : (b.length ≠ size * x.length → (exportValues format.toBytes size b
      x).thrown.isSome ∧ (exportValues format.toBytes size b x).array = b) ↔
      Told size b x.length := refused_iff_told b rfl rfl
  have toldImport : (b.length ≠ size * y.length → (importValues size b y).thrown.isSome ∧
      (importValues size b y).array = y) ↔ Told size b y.length := refused_iff_told y rfl rfl
  constructor
  · intro law
    exact ⟨fun sized sameLength => (undone_iff format sized sameLength).mp
      (law.undone sized sameLength), toldExport.mp law.exportRefused,
      toldImport.mp law.importRefused⟩
  · intro repeated
    exact ⟨fun sized sameLength => (undone_iff format sized sameLength).mpr
      (repeated.same sized sameLength), toldExport.mpr repeated.toldExport,
      toldImport.mpr repeated.toldImport⟩

end Run

/-- Both imports read the first number for every element. -/
theorem import_undoes_export_iff (b : List Byte) (ints ints' : List Word)
    (reals reals' : List RealBits) :
    (ImportUndoes mathExportInt mathImportInt 4 b ints ints' ↔ Repeated 4 b ints ints') ∧
      (ImportUndoes mathExportReal mathImportReal 8 b reals reals' ↔
        Repeated 8 b reals reals') :=
  ⟨importUndoes_iff intFormat b ints ints', importUndoes_iff realFormat b reals reals'⟩

/-- 1 and 2 come back as 1 and 1. -/
theorem import_repeats_first :
    ¬ ImportUndoes mathExportInt mathImportInt 4 (List.replicate 8 0) [1, 2] [0, 0] ∧
      ¬ ImportUndoes mathExportReal mathImportReal 8 (List.replicate 16 0) [1, 2] [0, 0] := by
  constructor
  · intro law
    exact absurd (law.undone rfl rfl).2 (by decide)
  · intro law
    exact absurd (law.undone rfl rfl).2 (by decide)

end Disvm.MathBytes
