import Disvm.TypeLayout
import Disvm.PointerMaps
import Mathlib.Tactic.IntervalCases

/-!
# Pointer maps of types

The compiler writes a map for every type that is allocated, for every frame and for the data of
the module.  The map has one bit for each word, and it ends with the last byte that has a bit.
-/

namespace Disvm.TypeMaps

open TypeLayout ObjectMemory PointerMaps

/-- `map[offset / (8*IBY2WD)] |= byte 1 << (7 - bit)`, which fails outside of the map. -/
def setbit (map : List UInt8) (offset : ℕ) : Option (List UInt8) :=
  let bit := offset / iby2wd % 8
  let index := offset / (8 * iby2wd)
  if index < map.length then
    some (map.modify index (· ||| 1 <<< UInt8.ofNat (7 - bit)))
  else none

/-- A map, with the offset of the last pointer in it. -/
abbrev Mapped := List UInt8 × Option ℕ

/-- The loop over the channels of an `alt`. -/
def altmap : List Bool → Mapped → (offset : ℕ) → Option Mapped
  | [], mapped, _ => some mapped
  | isptr :: labs, (map, m), offset =>
      if isptr then
        (setbit map offset).bind fun map =>
          altmap labs (map, some offset) (offset + 2 * iby2wd)
      else altmap labs (map, m) (offset + 2 * iby2wd)

/-- The loop over the labels of a `case` on strings. -/
def casecmap : (nlab : ℕ) → Mapped → (offset : ℕ) → Option Mapped
  | 0, mapped, _ => some mapped
  | nlab + 1, (map, _), offset =>
      (setbit map offset).bind fun map =>
        (setbit map (offset + iby2wd)).bind fun map =>
          casecmap nlab (map, some (offset + iby2wd)) (offset + iby2wd + 2 * iby2wd)

section Maps

variable (z : Bool)

mutual

def tdescmap : Ty → List UInt8 → (offset : ℕ) → Option Mapped
  | .plain kind, map, offset =>
      if kind.isptr then (setbit map offset).map (·, some offset) else some (map, none)
  | .record _ ids, map, offset => descmap ids (sizeids z ids 0 1).offsets (map, none) offset
  | .tadtpick _ _ tof, map, offset => tdescmap tof map offset
  | .talt labs, map, offset => altmap labs (map, none) (offset + iby2wd * 2)
  | .tcasec nlab, map, offset => casecmap nlab (map, none) (offset + iby2wd)
  | _, map, _ => some (map, none)

/-- `descmap`, with the offsets of the declarations and the last pointer so far. -/
def descmap : Ids → (offsets : List ℕ) → Mapped → (start : ℕ) → Option Mapped
  | .cons store linked ty next, offset :: offsets, (map, last), start =>
      if skips store linked then descmap next offsets (map, last) start
      else
        (tdescmap ty map (offset + start)).bind fun mapped =>
          descmap next offsets (mapped.1, mapped.2.or last) start
  | _, _, mapped, _ => some mapped

end

/-- The size and the map that `enterdesc` is given, with the length of the map's good part. -/
structure Descriptor where
  size : ℕ
  map : List UInt8
  nmap : ℕ
  deriving DecidableEq, Repr

/-- The map as it is before any bit is set. -/
def blank (size : ℕ) : List UInt8 :=
  List.replicate ((size + 8 * iby2wd - 1) / (8 * iby2wd)) 0

/-- The length of the map up to the last pointer. -/
def goodlen : Option ℕ → ℕ
  | some n => n / (8 * iby2wd) + 1
  | none => 0

/-- The length of the map is counted in an int. -/
def Countable (size : ℕ) : Prop :=
  size + 8 * iby2wd - 1 < maxint

instance (size : ℕ) : Decidable (Countable size) :=
  inferInstanceAs (Decidable (_ < _))

/-- `mkdesc`, up to `enterdesc`, as long as ints do not overflow. -/
def mkdesc (size : ℕ) (ids : Ids) (offsets : List ℕ) : Option Descriptor :=
  if Countable size then
    (descmap z ids offsets (blank size, none) 0).map fun mapped =>
      ⟨size, mapped.1, goodlen mapped.2⟩
  else none

/-- `mktdesc`, up to `enterdesc`, as long as ints do not overflow. -/
def mktdesc (t : Ty) : Option Descriptor :=
  if Countable (sizetype z t).size then
    (tdescmap z t (blank (sizetype z t).size) 0).map fun mapped =>
      ⟨(sizetype z t).size, mapped.1, goodlen mapped.2⟩
  else none

end Maps

/-- Bits are set for some offsets, in their order. -/
def markAll (map : List UInt8) (offsets : List ℕ) : Option (List UInt8) :=
  offsets.foldlM setbit map

theorem flags_or (words8 : UInt8) {bit other : ℕ} (inside : bit < 8) (isByte : other < 8) :
    flags (words8 ||| 1 <<< UInt8.ofNat (7 - bit)) (7 - other) =
      (flags words8 (7 - other) || other == bit) := by
  have single : (1 <<< UInt8.ofNat (7 - bit) : UInt8).toNat.testBit (7 - other) =
      (other == bit) := by
    interval_cases bit <;> interval_cases other <;> rfl
  unfold flags
  rw [UInt8.toNat_or, Nat.testBit_or, single]

/-- One bit is set and the others are as before. -/
theorem setbit_eq {map : List UInt8} {offset : ℕ} (inside : offset / 32 < map.length) :
    ∃ marked, setbit map offset = some marked ∧ marked.length = map.length ∧
      ∀ word, designates marked word = (designates map word || word == offset / 4) := by
  refine ⟨_, if_pos inside, List.length_modify _ _ _, fun word => ?_⟩
  unfold designates
  rw [List.getElem?_modify]
  by_cases isByte : offset / (8 * iby2wd) = word / 8
  · have found : word / 8 < map.length := isByte ▸ inside
    have bits := flags_or map[word / 8] (Nat.mod_lt (offset / iby2wd) (by decide : 0 < 8))
      (Nat.mod_lt word (by decide : 0 < 8))
    have isWord : (word % 8 == offset / 4 % 8) = (word == offset / 4) := by
      simp only [iby2wd] at isByte
      rw [Bool.eq_iff_iff, beq_iff_eq, beq_iff_eq]
      omega
    simp only [if_pos isByte, List.getElem?_eq_getElem found]
    exact bits.trans (congrArg _ isWord)
  · have other : (word == offset / 4) = false := by
      rw [beq_eq_false_iff_ne]
      simp only [iby2wd] at isByte
      omega
    simp only [if_neg isByte, other, Bool.or_false, id_map']

/-- A map that is long enough gets all the bits. -/
theorem markAll_eq (offsets : List ℕ) : ∀ {map : List UInt8},
    (∀ offset ∈ offsets, offset / 32 < map.length) →
    ∃ marked, markAll map offsets = some marked ∧ marked.length = map.length ∧
      ∀ word, designates marked word = true ↔
        designates map word = true ∨ ∃ offset ∈ offsets, offset / 4 = word := by
  induction offsets with
  | nil =>
      intro map _
      refine ⟨map, rfl, rfl, fun word => ?_⟩
      simp
  | cons offset offsets ih =>
      intro map inside
      obtain ⟨first, isFirst, isLength, bits⟩ := setbit_eq (inside offset List.mem_cons_self)
      obtain ⟨marked, isMarked, isWhole, others⟩ := @ih first fun other member =>
        isLength ▸ inside other (List.mem_cons_of_mem _ member)
      refine ⟨marked, ?_, isWhole.trans isLength, fun word => ?_⟩
      · rw [markAll, List.foldlM_cons, isFirst]
        exact isMarked
      · rw [others, bits, Bool.or_eq_true, beq_iff_eq, or_assoc, List.exists_mem_cons_iff,
          eq_comm (a := word)]

def altMarks : List Bool → (offset : ℕ) → List ℕ
  | [], _ => []
  | isptr :: labs, offset =>
      if isptr then offset :: altMarks labs (offset + 2 * iby2wd)
      else altMarks labs (offset + 2 * iby2wd)

def casecMarks : (nlab : ℕ) → (offset : ℕ) → List ℕ
  | 0, _ => []
  | nlab + 1, offset =>
      offset :: (offset + iby2wd) :: casecMarks nlab (offset + iby2wd + 2 * iby2wd)

section Marks

variable (z : Bool)

mutual

/-- The offsets of a type that `tdescmap` sets bits for, in its order. -/
def marks : Ty → (offset : ℕ) → List ℕ
  | .plain kind, offset => if kind.isptr then [offset] else []
  | .record _ ids, offset => idsMarks ids (sizeids z ids 0 1).offsets offset
  | .tadtpick _ _ tof, offset => marks tof offset
  | .talt labs, offset => altMarks labs (offset + iby2wd * 2)
  | .tcasec nlab, offset => casecMarks nlab (offset + iby2wd)
  | _, _ => []

def idsMarks : Ids → (offsets : List ℕ) → (start : ℕ) → List ℕ
  | .cons store linked ty next, offset :: offsets, start =>
      if skips store linked then idsMarks next offsets start
      else marks ty (offset + start) ++ idsMarks next offsets start
  | _, _, _ => []

end

/-- Bits are set, and the last of them is known. -/
def Marked (mapped : Mapped) (offsets : List ℕ) : Option Mapped :=
  (markAll mapped.1 offsets).map (·, offsets.getLast?.or mapped.2)

theorem marked_cons (mapped : Mapped) (offset : ℕ) (offsets : List ℕ) :
    Marked mapped (offset :: offsets) =
      (setbit mapped.1 offset).bind fun map => Marked (map, some offset) offsets := by
  unfold Marked markAll
  rw [List.foldlM_cons, List.getLast?_cons]
  cases setbit mapped.1 offset with
  | none => rfl
  | some map => cases offsets.getLast? <;> rfl

theorem marked_append (mapped : Mapped) (first second : List ℕ) :
    Marked mapped (first ++ second) =
      (Marked mapped first).bind fun mapped => Marked mapped second := by
  induction first generalizing mapped with
  | nil => rfl
  | cons offset first ih =>
      rw [List.cons_append, marked_cons, marked_cons]
      cases setbit mapped.1 offset with
      | none => rfl
      | some map => exact ih (map, some offset)

theorem marked_or (map : List UInt8) (last : Option ℕ) (offsets : List ℕ) :
    (Marked (map, none) offsets).map (fun mapped => (mapped.1, mapped.2.or last)) =
      Marked (map, last) offsets := by
  unfold Marked
  cases markAll map offsets with
  | none => rfl
  | some map => cases offsets.getLast? <;> rfl

theorem altmap_eq (labs : List Bool) (mapped : Mapped) (offset : ℕ) :
    altmap labs mapped offset = Marked mapped (altMarks labs offset) := by
  induction labs generalizing mapped offset with
  | nil => rfl
  | cons isptr labs ih =>
      cases isptr with
      | false => exact ih mapped (offset + 2 * iby2wd)
      | true =>
          rw [altmap, if_pos rfl, altMarks, if_pos rfl, marked_cons]
          simp only [ih]

theorem casecmap_eq (nlab : ℕ) (mapped : Mapped) (offset : ℕ) :
    casecmap nlab mapped offset = Marked mapped (casecMarks nlab offset) := by
  induction nlab generalizing mapped offset with
  | zero => rfl
  | succ nlab ih =>
      rw [casecmap, casecMarks, marked_cons]
      simp only [marked_cons, ih]

mutual

theorem tdescmap_eq : ∀ (ty : Ty) (map : List UInt8) (offset : ℕ),
    tdescmap z ty map offset = Marked (map, none) (marks z ty offset)
  | .plain kind, map, offset => by
      rw [tdescmap, marks]
      cases kind.isptr with
      | false => rfl
      | true =>
          rw [if_pos rfl, if_pos rfl, marked_cons]
          cases setbit map offset <;> rfl
  | .record _ ids, map, offset => by
      rw [tdescmap, marks]
      exact descmap_eq ids _ (map, none) offset
  | .tadtpick _ _ tof, map, offset => by
      rw [tdescmap, marks]
      exact tdescmap_eq tof map offset
  | .talt labs, map, offset => altmap_eq labs _ _
  | .tcasec nlab, map, offset => casecmap_eq nlab _ _
  | .tcase _, _, _ => rfl
  | .tcasel _, _, _ => rfl
  | .tgoto _ _, _, _ => rfl
  | .tiface _, _, _ => rfl

theorem descmap_eq : ∀ (ids : Ids) (offsets : List ℕ) (mapped : Mapped) (start : ℕ),
    descmap z ids offsets mapped start = Marked mapped (idsMarks z ids offsets start)
  | .nil, _, _, _ => rfl
  | .cons _ _ _ _, [], _, _ => rfl
  | .cons store linked ty next, offset :: offsets, (map, last), start => by
      rw [descmap, idsMarks]
      split_ifs
      · exact descmap_eq next offsets (map, last) start
      · rw [marked_append, ← marked_or, tdescmap_eq ty map (offset + start)]
        cases Marked (map, none) (marks z ty (offset + start)) with
        | none => rfl
        | some mapped => exact descmap_eq next offsets _ start

end

theorem mem_altMarks {labs : List Bool} {offset place : ℕ} :
    place ∈ altMarks labs offset ↔
      ∃ i, labs[i]? = some true ∧ place = offset + i * (2 * iby2wd) := by
  induction labs generalizing offset with
  | nil => simp [altMarks]
  | cons isptr labs ih =>
      rw [← Nat.or_exists_add_one]
      have later : place ∈ altMarks labs (offset + 2 * iby2wd) ↔
          ∃ i, (isptr :: labs)[i + 1]? = some true ∧
            place = offset + (i + 1) * (2 * iby2wd) := by
        rw [ih]
        apply exists_congr
        intro i
        have shift : offset + 2 * iby2wd + i * (2 * iby2wd) =
            offset + (i + 1) * (2 * iby2wd) := by
          simp only [iby2wd]
          omega
        rw [List.getElem?_cons_succ, shift]
      rw [← later]
      cases isptr <;> simp [altMarks]

theorem mem_casecMarks {nlab offset place : ℕ} :
    place ∈ casecMarks nlab offset ↔
      ∃ i < nlab, place = offset + i * (3 * iby2wd) ∨
        place = offset + iby2wd + i * (3 * iby2wd) := by
  induction nlab generalizing offset with
  | zero => simp [casecMarks]
  | succ nlab ih =>
      rw [← Nat.or_exists_add_one, casecMarks, List.mem_cons, List.mem_cons, ih]
      simp only [Nat.zero_mul, Nat.succ_mul, Nat.succ_lt_succ_iff, iby2wd, Nat.zero_lt_succ,
        true_and, Nat.add_zero, or_assoc]
      apply or_congr_right
      apply or_congr_right
      apply exists_congr
      intro i
      apply and_congr_right
      intro _
      omega

variable {z}

theorem idsMarks_eq (ids : Ids) (offsets : List ℕ) (start : ℕ) :
    idsMarks z ids offsets start =
      (visited ids offsets).flatMap fun field => marks z field.2 (field.1 + start) := by
  match ids, offsets with
  | .nil, _ => rfl
  | .cons _ _ _ _, [] => rfl
  | .cons store linked ty next, offset :: offsets =>
      rw [idsMarks, visited, idsMarks_eq next offsets start]
      split_ifs
      · rfl
      · rw [List.flatMap_cons]

mutual

theorem mem_marks : ∀ {ty : Ty}, ty.Proper → ∀ {offset place : ℕ},
    place ∈ marks z ty offset ↔ ∃ inner, Points z ty inner ∧ place = offset + inner
  | .plain kind, _, offset, place => by
      rw [marks]
      constructor
      · intro member
        split_ifs at member with isptr
        · exact ⟨0, .pointer isptr, List.mem_singleton.mp member⟩
        · cases member
      · rintro ⟨inner, holds, rfl⟩
        cases holds with
        | pointer isptr => simp [isptr]
  | .record kind ids, proper, offset, place => by
      rw [marks, idsMarks_eq, List.mem_flatMap]
      constructor
      · rintro ⟨⟨start, ty⟩, member, marked⟩
        obtain ⟨inner, holds, rfl⟩ := (mem_visited proper.2 member).mp marked
        exact ⟨start + inner, .field member holds, by omega⟩
      · rintro ⟨inner, holds, rfl⟩
        cases holds with
        | @field _ _ start inner ty member holds =>
            refine ⟨(start, ty), member, (mem_visited proper.2 member).mpr ⟨inner, holds, ?_⟩⟩
            dsimp only
            omega
  | .tadtpick ids own tof, proper, offset, place => by
      obtain ⟨members, picked, isTof, isProper⟩ := proper
      have same : ∀ inner, Points z tof inner ↔ Points z (.tadtpick ids own tof) inner := by
        intro inner
        conv_lhs => rw [isTof]
        exact mkadtpickcon_points z members picked tof inner
      rw [marks, mem_marks isProper]
      simp only [same]
  | .talt labs, _, offset, place => by
      rw [marks, mem_altMarks]
      constructor
      · rintro ⟨i, isptr, rfl⟩
        exact ⟨_, .channel isptr, by omega⟩
      · rintro ⟨inner, holds, rfl⟩
        cases holds with
        | @channel _ i isptr => exact ⟨i, isptr, by omega⟩
  | .tcasec nlab, _, offset, place => by
      rw [marks, mem_casecMarks]
      constructor
      · rintro ⟨i, inside, rfl | rfl⟩
        · exact ⟨_, .start inside, by omega⟩
        · exact ⟨_, .stop inside, by omega⟩
      · rintro ⟨inner, holds, rfl⟩
        cases holds with
        | @start _ i inside => exact ⟨i, inside, Or.inl (by omega)⟩
        | @stop _ i inside => exact ⟨i, inside, Or.inr (by omega)⟩
  | .tcase _, _, offset, place => by simp [marks]; nofun
  | .tcasel _, _, offset, place => by simp [marks]; nofun
  | .tgoto _ _, _, offset, place => by simp [marks]; nofun
  | .tiface _, _, offset, place => by simp [marks]; nofun

theorem mem_visited : ∀ {ids : Ids}, ids.Proper → ∀ {offsets : List ℕ} {start : ℕ} {ty : Ty},
    (start, ty) ∈ visited ids offsets → ∀ {offset place : ℕ},
      place ∈ marks z ty offset ↔ ∃ inner, Points z ty inner ∧ place = offset + inner
  | .nil, _, _, _, _, member => by cases member
  | .cons _ _ _ _, _, [], _, _, member => by cases member
  | .cons store linked first next, proper, offset :: offsets, start, ty, member => by
      rw [visited] at member
      split_ifs at member
      · exact mem_visited proper.2 member
      · cases member with
        | head => exact mem_marks proper.1
        | tail _ later => exact mem_visited proper.2 later

end

theorem visited_proper {ids : Ids} (proper : ids.Proper) {offsets : List ℕ} {entry : ℕ × Ty}
    (member : entry ∈ visited ids offsets) : entry.2.Proper := by
  match ids, offsets with
  | .nil, _ => cases member
  | .cons _ _ _ _, [] => cases member
  | .cons store linked ty next, offset :: offsets =>
      rw [visited] at member
      split_ifs at member
      · exact visited_proper proper.2 member
      · rcases List.mem_cons.mp member with rfl | later
        · exact proper.1
        · exact visited_proper proper.2 later

theorem altMarks_sorted (labs : List Bool) (offset : ℕ) :
    (altMarks labs offset).Pairwise (· < ·) := by
  induction labs generalizing offset with
  | nil => exact List.Pairwise.nil
  | cons isptr labs ih =>
      rw [altMarks]
      split_ifs
      · apply List.Pairwise.cons _ (ih _)
        intro place member
        obtain ⟨i, -, rfl⟩ := mem_altMarks.mp member
        simp only [iby2wd]
        omega
      · exact ih _

theorem casecMarks_sorted (nlab offset : ℕ) : (casecMarks nlab offset).Pairwise (· < ·) := by
  induction nlab generalizing offset with
  | zero => exact List.Pairwise.nil
  | succ nlab ih =>
      have later : ∀ place ∈ casecMarks nlab (offset + iby2wd + 2 * iby2wd),
          offset + iby2wd < place := by
        intro place member
        obtain ⟨i, -, isPlace⟩ := mem_casecMarks.mp member
        simp only [iby2wd] at isPlace ⊢
        omega
      rw [casecMarks]
      apply List.Pairwise.cons _ (List.Pairwise.cons later (ih _))
      intro place member
      have next : offset < offset + iby2wd := Nat.lt_add_of_pos_right (by decide)
      rcases List.mem_cons.mp member with rfl | further
      · exact next
      · exact next.trans (later place further)

/-- Pointers of a field come before those of a later one. -/
theorem fields_marks_sorted {entries : List (ℕ × Ty)} (start : ℕ)
    (ordered : entries.Pairwise fun first second =>
      first.1 + (sizetype z first.2).size ≤ second.1)
    (proper : ∀ entry ∈ entries, entry.2.Proper)
    (each : ∀ entry ∈ entries, ∀ offset, (marks z entry.2 offset).Pairwise (· < ·)) :
    (entries.flatMap fun entry => marks z entry.2 (entry.1 + start)).Pairwise (· < ·) := by
  rw [List.pairwise_flatMap]
  refine ⟨fun entry member => each entry member _, ordered.imp_of_mem ?_⟩
  intro first second isFirst isSecond before place member other otherMember
  obtain ⟨inner, holds, rfl⟩ := (mem_marks (proper first isFirst)).mp member
  obtain ⟨later, -, rfl⟩ := (mem_marks (proper second isSecond)).mp otherMember
  have inside := holds.word.2.1
  simp only [iby2wd] at inside
  omega

mutual

theorem marks_sorted : ∀ {ty : Ty}, ty.Proper → ∀ offset, (marks z ty offset).Pairwise (· < ·)
  | .plain kind, _, offset => by
      rw [marks]
      split_ifs
      · exact List.pairwise_singleton _ _
      · exact List.Pairwise.nil
  | .record _ ids, proper, offset => by
      rw [marks, idsMarks_eq]
      apply fields_marks_sorted offset (fields_ordered z ids 0)
      · exact fun entry member => visited_proper proper.2 member
      · exact fun entry member => visited_sorted proper.2 _ member
  | .tadtpick _ _ tof, proper, offset => by
      rw [marks]
      exact marks_sorted proper.2.2.2 offset
  | .talt labs, _, _ => altMarks_sorted labs _
  | .tcasec nlab, _, _ => casecMarks_sorted nlab _
  | .tcase _, _, _ => List.Pairwise.nil
  | .tcasel _, _, _ => List.Pairwise.nil
  | .tgoto _ _, _, _ => List.Pairwise.nil
  | .tiface _, _, _ => List.Pairwise.nil

theorem visited_sorted : ∀ {ids : Ids}, ids.Proper → ∀ (offsets : List ℕ) {entry : ℕ × Ty},
    entry ∈ visited ids offsets → ∀ offset, (marks z entry.2 offset).Pairwise (· < ·)
  | .nil, _, _, _, member => by cases member
  | .cons _ _ _ _, _, [], _, member => by cases member
  | .cons store linked ty next, proper, offset :: offsets, entry, member => by
      rw [visited] at member
      split_ifs at member
      · exact visited_sorted proper.2 offsets member
      · cases member with
        | head => exact marks_sorted proper.1
        | tail _ later => exact visited_sorted proper.2 offsets later

end

end Marks

/-- A descriptor has a size, and the good part of its map has exactly the bits of some offsets. -/
structure Describes (desc : Descriptor) (size : ℕ) (points : ℕ → Prop) : Prop where
  isSize : desc.size = size
  bits : ∀ word, designates (desc.map.take desc.nmap) word = true ↔ points (iby2wd * word)
  words : ∀ place, points place → iby2wd ∣ place ∧ place + iby2wd ≤ size
  good : desc.nmap ≤ desc.map.length
  rest : ∀ byte ∈ desc.map.drop desc.nmap, byte = 0
  least : ∀ byte, (desc.map.take desc.nmap).getLast? = some byte → byte ≠ 0

theorem eq_of_flags {first second : UInt8}
    (bits : ∀ bit < 8, flags first (7 - bit) = flags second (7 - bit)) : first = second := by
  apply UInt8.toNat_inj.mp
  apply Nat.eq_of_testBit_eq
  intro bit
  by_cases inside : bit < 8
  · have isBit : 7 - (7 - bit) = bit := by omega
    exact isBit ▸ bits (7 - bit) (by omega)
  · have beyond : 2 ^ 8 ≤ 2 ^ bit := Nat.pow_le_pow_right (by decide) (Nat.not_lt.mp inside)
    rw [Nat.testBit_lt_two_pow (first.toNat_lt.trans_le beyond),
      Nat.testBit_lt_two_pow (second.toNat_lt.trans_le beyond)]

theorem eq_zero_of_flags {words8 : UInt8} (bits : ∀ bit < 8, flags words8 (7 - bit) = false) :
    words8 = 0 :=
  eq_of_flags fun bit isBit => (bits bit isBit).trans (flags_zero _).symm

theorem getElem_designates {map : List UInt8} {index : ℕ} (inside : index < map.length) {bit : ℕ}
    (isBit : bit < 8) : designates map (8 * index + bit) = flags map[index] (7 - bit) := by
  have isIndex : (8 * index + bit) / 8 = index := by omega
  have isRest : (8 * index + bit) % 8 = bit := by omega
  unfold designates
  rw [isIndex, isRest, List.getElem?_eq_getElem inside]
  rfl

theorem designates_take {map : List UInt8} {count word : ℕ} :
    designates (map.take count) word = true ↔ designates map word = true ∧ word / 8 < count := by
  unfold designates
  rw [List.getElem?_take]
  split_ifs with inside
  · simp [inside]
  · simp [inside]

theorem designates_blank (size word : ℕ) : designates (blank size) word = false := by
  unfold designates blank
  rw [List.getElem?_replicate]
  split_ifs
  · exact Nat.zero_testBit _
  · rfl

theorem le_getLast {offsets : List ℕ} (sorted : offsets.Pairwise (· < ·)) {last : ℕ}
    (isLast : offsets.getLast? = some last) : ∀ offset ∈ offsets, offset ≤ last := by
  obtain ⟨init, rfl⟩ := List.getLast?_eq_some_iff.mp isLast
  intro offset member
  rcases List.mem_append.mp member with earlier | same
  · exact ((List.pairwise_append.mp sorted).2.2 offset earlier last List.mem_cons_self).le
  · exact (List.mem_singleton.mp same).le

/-- The good part reaches to the last offset. -/
theorem lt_goodlen {offsets : List ℕ} (sorted : offsets.Pairwise (· < ·)) :
    ∀ offset ∈ offsets, offset / 32 < goodlen offsets.getLast? := by
  intro offset member
  cases isLast : offsets.getLast? with
  | none =>
      rw [List.getLast?_eq_none_iff.mp isLast] at member
      cases member
  | some last =>
      have bound := le_getLast sorted isLast offset member
      exact Nat.lt_succ_of_le (Nat.div_le_div_right bound)

/-- A map whose bits are set in increasing order, and whose good part ends with the last. -/
theorem marked_describes {size : ℕ} {offsets : List ℕ} (sorted : offsets.Pairwise (· < ·))
    (words : ∀ place ∈ offsets, iby2wd ∣ place ∧ place + iby2wd ≤ size) :
    ∃ desc, (Marked (blank size, none) offsets).map
        (fun mapped => (⟨size, mapped.1, goodlen mapped.2⟩ : Descriptor)) = some desc ∧
      Describes desc size (· ∈ offsets) := by
  have long : (blank size).length = (size + 31) / 32 := List.length_replicate
  have inside : ∀ offset ∈ offsets, offset / 32 < (blank size).length := by
    intro offset member
    have bound := (words offset member).2
    simp only [iby2wd] at bound
    omega
  obtain ⟨marked, isMarked, isLength, bits⟩ := markAll_eq offsets inside
  have isWord : ∀ word, designates marked word = true ↔ iby2wd * word ∈ offsets := by
    intro word
    rw [bits, designates_blank]
    constructor
    · rintro (absurdity | ⟨offset, member, rfl⟩)
      · cases absurdity
      · exact (Nat.mul_div_cancel' (words offset member).1).symm ▸ member
    · intro member
      exact Or.inr ⟨_, member, Nat.mul_div_cancel_left word (by decide)⟩
  have near := lt_goodlen sorted
  refine ⟨⟨size, marked, goodlen offsets.getLast?⟩, ?_, rfl, ?_, words, ?_, ?_, ?_⟩
  · unfold Marked
    rw [isMarked, Option.map_some, Option.map_some, Option.or_none]
  · intro word
    rw [designates_take, isWord]
    apply and_iff_left_of_imp
    intro member
    have bound := near _ member
    simp only [iby2wd] at bound
    dsimp only
    omega
  · dsimp only
    cases isLast : offsets.getLast? with
    | none => exact Nat.zero_le _
    | some last => exact isLength ▸ inside last (List.mem_of_getLast? isLast)
  · intro byte member
    obtain ⟨index, isIndex, rfl⟩ := List.mem_drop_iff_getElem.mp member
    apply eq_zero_of_flags
    intro bit isBit
    rw [add_comm] at isIndex
    apply (getElem_designates isIndex isBit).symm.trans
    apply Bool.eq_false_of_not_eq_true
    intro isSet
    have bound := near _ ((isWord _).mp isSet)
    simp only [iby2wd] at bound
    omega
  · intro byte isLastByte
    dsimp only at isLastByte
    cases isLast : offsets.getLast? with
    | none =>
        rw [isLast] at isLastByte
        cases isLastByte
    | some last =>
        have member := List.mem_of_getLast? isLast
        have found : last / 32 < marked.length := isLength ▸ inside last member
        have isSet := (isWord (last / iby2wd)).mpr
          ((Nat.mul_div_cancel' (words last member).1).symm ▸ member)
        have place : 8 * (last / 32) + last / iby2wd % 8 = last / iby2wd := by
          simp only [iby2wd]
          omega
        rw [← place, getElem_designates found (Nat.mod_lt _ (by decide))] at isSet
        have isGood : goodlen (some last) = last / 32 + 1 := rfl
        rw [isLast, isGood, List.take_succ_eq_append_getElem found,
          List.getLast?_concat] at isLastByte
        cases isLastByte
        intro isZero
        rw [isZero, flags_zero] at isSet
        cases isSet

/-- A map without a zero at its end is no longer than another one with the same bits. -/
theorem length_le_of_bits {first second : List UInt8}
    (least : ∀ byte, first.getLast? = some byte → byte ≠ 0)
    (bits : ∀ word, designates first word = true → designates second word = true) :
    first.length ≤ second.length := by
  rcases List.eq_nil_or_concat' first with rfl | ⟨init, last, rfl⟩
  · exact Nat.zero_le _
  · by_contra longer
    apply least last List.getLast?_concat
    apply eq_zero_of_flags
    intro bit isBit
    apply Bool.eq_false_of_not_eq_true
    intro isSet
    have found : init.length < (init ++ [last]).length := by simp
    have isLast : (init ++ [last])[init.length] = last := by simp
    have inside := designates_inside (bits (8 * init.length + bit) (by
      rw [getElem_designates found isBit, isLast]
      exact isSet))
    rw [List.length_append, List.length_singleton] at longer
    omega

/-- Descriptors of the same values have the same good part. -/
theorem Describes.unique {first second : Descriptor} {size : ℕ} {points : ℕ → Prop}
    (isFirst : Describes first size points) (isSecond : Describes second size points) :
    first.size = second.size ∧ first.nmap = second.nmap ∧
      first.map.take first.nmap = second.map.take second.nmap := by
  have bits : ∀ word, designates (first.map.take first.nmap) word = true ↔
      designates (second.map.take second.nmap) word = true :=
    fun word => (isFirst.bits word).trans (isSecond.bits word).symm
  have isLength := le_antisymm (length_le_of_bits isFirst.least fun word => (bits word).mp)
    (length_le_of_bits isSecond.least fun word => (bits word).mpr)
  have equal : first.map.take first.nmap = second.map.take second.nmap := by
    apply List.ext_getElem isLength
    intro index inside isInside
    apply eq_of_flags
    intro bit isBit
    rw [← getElem_designates inside isBit, ← getElem_designates isInside isBit,
      Bool.eq_iff_iff, bits]
  rw [List.length_take_of_le isFirst.good, List.length_take_of_le isSecond.good] at isLength
  exact ⟨isFirst.isSize.trans isSecond.isSize.symm, isLength, equal⟩

section Results

variable {z : Bool}

theorem Describes.congr {desc : Descriptor} {size : ℕ} {points others : ℕ → Prop}
    (describes : Describes desc size points) (same : ∀ place, points place ↔ others place) :
    Describes desc size others := by
  have equal : points = others := funext fun place => propext (same place)
  exact equal ▸ describes

/-- The descriptor of a type maps the pointers of its values. -/
theorem mktdesc_describes (z : Bool) {t : Ty} (proper : t.Proper)
    (countable : Countable (sizetype z t).size) :
    ∃ desc, mktdesc z t = some desc ∧ Describes desc (sizetype z t).size (Points z t) := by
  have same : ∀ place, place ∈ marks z t 0 ↔ Points z t place := by
    intro place
    rw [mem_marks proper]
    simp only [zero_add, exists_eq_right']
  obtain ⟨desc, isDesc, describes⟩ := marked_describes (marks_sorted (z := z) proper 0)
    fun place member => ⟨((same place).mp member).word.1, ((same place).mp member).word.2.1⟩
  refine ⟨desc, ?_, describes.congr same⟩
  rw [mktdesc, if_pos countable, tdescmap_eq]
  exact isDesc

/-- A map is empty just where nothing is designated. -/
theorem Describes.nmap_eq_zero {desc : Descriptor} {size : ℕ} {points : ℕ → Prop}
    (describes : Describes desc size points) : desc.nmap = 0 ↔ ∀ place, ¬ points place := by
  constructor
  · intro isEmpty place isPoint
    obtain ⟨word, rfl⟩ := (describes.words place isPoint).1
    have isSet := (describes.bits word).mpr isPoint
    rw [isEmpty] at isSet
    cases isSet
  · intro none
    by_contra some
    have nonempty : desc.map.take desc.nmap ≠ [] := by
      rw [← List.length_pos_iff, List.length_take_of_le describes.good]
      exact Nat.pos_of_ne_zero some
    apply describes.least _ (List.getLast?_eq_some_getLast nonempty)
    apply eq_zero_of_flags
    intro bit isBit
    apply Bool.eq_false_of_not_eq_true
    intro isSet
    have last := List.getLast_eq_getElem nonempty
    have found : (desc.map.take desc.nmap).length - 1 < (desc.map.take desc.nmap).length :=
      Nat.sub_lt (List.length_pos_iff.mpr nonempty) Nat.one_pos
    rw [last, ← getElem_designates found isBit, describes.bits] at isSet
    exact none _ isSet

/-- Every type whose size ints can count gets a descriptor.  By it the machine goes to exactly the
pointers of a value that are not nil, in their order and to each once.  They are whole words of the
value, and the descriptor is without a map just where values hold no pointer, so that they are moved
without one. -/
theorem mktdesc_visits (z : Bool) {t : Ty} (proper : t.Proper)
    (countable : Countable (sizetype z t).size) : ∃ desc, mktdesc z t = some desc ∧
    desc.size = (sizetype z t).size ∧
    (∀ memory,
      (enumPointerFields ⟨desc.size, desc.map.take desc.nmap⟩ memory).Pairwise (· < ·) ∧
      ∀ field, field ∈ enumPointerFields ⟨desc.size, desc.map.take desc.nmap⟩ memory ↔
        Points z t (iby2wd * field) ∧ memory field ≠ PointerMaps.nil) ∧
    (∀ place, Points z t place → iby2wd ∣ place ∧ place + iby2wd ≤ desc.size) ∧
    (desc.nmap = 0 ↔ ∀ place, ¬ Points z t place) := by
  obtain ⟨desc, isDesc, describes⟩ := mktdesc_describes z proper countable
  refine ⟨desc, isDesc, describes.isSize, fun memory => ⟨?_, fun field => ?_⟩,
    describes.isSize.symm ▸ describes.words, describes.nmap_eq_zero⟩
  · rw [enumPointerFields_eq]
    exact List.pairwise_lt_range.sublist List.filter_sublist
  · rw [enumPointerFields_eq, mem_pointerWords, describes.bits]

theorem byteString_visited : ∃ desc, mktdesc false byteString = some desc ∧ desc.size = 12 ∧
    ∀ memory, memory 2 ≠ PointerMaps.nil →
      2 ∈ enumPointerFields ⟨desc.size, desc.map.take desc.nmap⟩ memory := by
  have countable : Countable (sizetype false byteString).size := by decide
  obtain ⟨desc, isDesc, isSize, visits, -⟩ := mktdesc_visits false byteString_proper countable
  refine ⟨desc, isDesc, isSize, fun memory some => ?_⟩
  exact ((visits memory).2 2).mpr ⟨byteString_points, some⟩

/-- What the fields of a frame or of a module's data hold. -/
def Holds (z : Bool) (entries : List (ℕ × Ty)) (place : ℕ) : Prop :=
  ∃ entry ∈ entries, ∃ inner, Points z entry.2 inner ∧ place = entry.1 + inner

/-- The descriptor of declarations maps the pointers of those that are not skipped, if they have
been given places in their order. -/
theorem mkdesc_describes {ids : Ids} {offsets : List ℕ} {size : ℕ}
    (ordered : (visited ids offsets).Pairwise fun first second =>
      first.1 + (sizetype z first.2).size ≤ second.1)
    (placed : ∀ entry ∈ visited ids offsets,
      (sizetype z entry.2).align ∣ entry.1 ∧ entry.1 + (sizetype z entry.2).size ≤ size)
    (proper : ids.Proper) (countable : Countable size) :
    ∃ desc, mkdesc z size ids offsets = some desc ∧
      Describes desc size (Holds z (visited ids offsets)) := by
  have same : ∀ place, place ∈ idsMarks z ids offsets 0 ↔ Holds z (visited ids offsets) place := by
    intro place
    rw [idsMarks_eq, List.mem_flatMap]
    apply exists_congr
    intro entry
    apply and_congr_right
    intro member
    rw [mem_marks (visited_proper proper member)]
    rfl
  have sorted : (idsMarks z ids offsets 0).Pairwise (· < ·) := by
    rw [idsMarks_eq]
    exact fields_marks_sorted 0 ordered (fun entry member => visited_proper proper member)
      fun entry member => visited_sorted proper offsets member
  have words : ∀ place ∈ idsMarks z ids offsets 0,
      iby2wd ∣ place ∧ place + iby2wd ≤ size := by
    intro place member
    obtain ⟨entry, isEntry, inner, holds, rfl⟩ := (same place).mp member
    obtain ⟨isWord, inside, aligned⟩ := holds.word
    have bound := (placed entry isEntry).2
    exact ⟨Nat.dvd_add (aligned.trans (placed entry isEntry).1) isWord, by omega⟩
  obtain ⟨desc, isDesc, describes⟩ := marked_describes sorted words
  refine ⟨desc, ?_, describes.congr same⟩
  rw [mkdesc, if_pos countable, descmap_eq]
  exact isDesc

end Results

end Disvm.TypeMaps
