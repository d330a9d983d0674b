import Disvm.DataPieces
import Disvm.ModuleRoundTrip

/-!
# The data section is read as it is written

What has been written leads the reader from one configuration to another one, and the values that
are kept back are what the reader is behind.
-/

namespace Disvm.DataWriter

open ModuleReader ModuleWriter TypeLayout Strings DataSection

def DataKind.datumType : DataKind → DatumType
  | .defb => .valueBit8
  | .defw => .valueBit32
  | .defs => .utfString
  | .deff => .valueReal64
  | .defa => .array
  | .dind => .setArray
  | .dapop => .restoreLoadAddress
  | .defl => .valueBit64

/-- The code of an item. -/
theorem item_code (kind : DataKind) {n : ℕ} (small : n < dmax) :
    UInt8.ofNat (kind.code * dmax + n) ≠ 0 ∧
      DatumType.ofCode ((UInt8.ofNat (kind.code * dmax + n) &&& 0xf0) >>> 4).toNat =
        some kind.datumType ∧
      (UInt8.ofNat (kind.code * dmax + n) &&& 0x0f).toNat = n := by
  have codes : ∀ n : Fin 16, UInt8.ofNat (kind.code * dmax + n) ≠ 0 ∧
      DatumType.ofCode ((UInt8.ofNat (kind.code * dmax + n) &&& 0xf0) >>> 4).toNat =
        some kind.datumType ∧
      (UInt8.ofNat (kind.code * dmax + n) &&& 0x0f).toNat = n := by
    cases kind <;> decide
  exact codes ⟨n, small⟩

/-- Offsets that are written and read as they are. -/
def InRange (offset : ℤ) : Prop :=
  0 ≤ offset ∧ offset < 2 ^ 31

theorem toInt_of_inRange {offset : ℤ} (inRange : InRange offset) :
    (BitVec.ofInt 32 offset).toInt = offset := by
  rw [BitVec.toInt_ofInt]
  obtain ⟨isNat, small⟩ := inRange
  rw [Int.bmod_def]
  split_ifs <;> omega

section Items

variable {setting : Setting}

/-- The beginning of an item is read back. -/
theorem readHeader_item {kind : DataKind} {n : ℕ} {offset : ℤ} {head behind : List UInt8}
    (isHead : disdata kind n = some head) (isOffset : disoffset offset = some behind)
    (inRange : InRange offset) (rest : Stream) :
    readHeader (head ++ (behind ++ rest)) =
      .item ⟨some kind.datumType, n, offset⟩ rest := by
  have isByteOffset := toInt_of_inRange inRange
  unfold disdata at isHead
  split_ifs at isHead with short
  · cases isHead
    obtain ⟨some, isType, isCount⟩ := item_code kind short.1
    rw [List.singleton_append, readHeader, getNextBytes_one]
    simp only [List.getD_cons_zero]
    rw [if_neg some]
    have small : n < 2 ^ 32 := short.1.trans (by decide)
    rw [isType, isCount, if_neg short.2]
    dsimp only
    rw [readNextOperand_discon isOffset]
    dsimp only
    rw [isByteOffset, BitVec.toNat_ofNat, Nat.mod_eq_of_lt small]
  · obtain ⟨count, isCount, rfl⟩ := Option.map_eq_some_iff.mp isHead
    obtain ⟨small, written⟩ := discount_eq isCount
    obtain ⟨some, isType, isZero⟩ := @item_code kind 0 (by decide)
    rw [Nat.add_zero] at some isType isZero
    rw [List.cons_append, readHeader, getNextBytes_one]
    simp only [List.getD_cons_zero]
    rw [if_neg some, isType, isZero, if_pos rfl, readNextOperand_discon written]
    dsimp only
    rw [readNextOperand_discon isOffset]
    dsimp only
    rw [isByteOffset, BitVec.toNat_ofNat, Nat.mod_eq_of_lt (small.trans (by decide))]

end Items

def DataKind.size : DataKind → ℕ
  | .defb => 1
  | .defw => 4
  | .deff | .defl => 8
  | .defs | .defa | .dind | .dapop => 0

section Values

def DataKind.read : DataKind → Stream → Option (List Cell × Stream)
  | .defb => readByte
  | .defw => readWord
  | _ => readSegment

theorem bigBytes_words (v : BitVec 64) :
    ((v.sshiftRight 32).setWidth 32 : Word).signExtend 64 <<< 32 |||
      (v.setWidth 32 : Word).setWidth 64 = v := by
  apply BitVec.eq_of_getLsbD_eq
  intro i isBit
  simp only [BitVec.getLsbD_or, BitVec.getLsbD_shiftLeft, BitVec.getLsbD_signExtend,
    BitVec.getLsbD_setWidth, BitVec.getLsbD_sshiftRight]
  rcases Nat.lt_or_ge i 32 with low | high
  · simp [low, isBit]
  · have isHigh : i - 32 < 32 := by omega
    have back : 32 + (i - 32) = i := by omega
    have inside : i - 32 < 64 := by omega
    simp [isBit, isHigh, back, inside, Nat.not_lt.mpr high]

theorem read_value (v : Value) (rest : Stream) :
    v.kind.read (v.bytes ++ rest) = some (v.cells, rest) := by
  have segment : ∀ v : BitVec 64,
      readSegment (bigBytes v ++ rest) = some (hostBytes 8 v, rest) := by
    intro v
    unfold readSegment bigBytes
    rw [List.append_assoc, readNextWord_disword]
    dsimp only [Option.bind_eq_bind, Option.bind_some]
    rw [readNextWord_disword]
    dsimp only [Option.bind_some, Option.pure_def]
    rw [bigBytes_words]
  cases v with
  | byte v => rfl
  | word v =>
      show readWord (disword v ++ rest) = _
      unfold readWord
      rw [readNextWord_disword]
      rfl
  | big v => exact segment v
  | real v => exact segment v

theorem length_cells (v : Value) : v.cells.length = v.kind.size := by
  cases v
  · rfl
  all_goals exact length_hostBytes _ _

theorem length_bytes (v : Value) : v.bytes.length = v.kind.size := by
  cases v <;> rfl

theorem size_read (kind : DataKind) (isValue : ∃ v : Value, v.kind = kind) (reader : Stream)
    (datum : List Cell) (rest : Stream) (read : kind.read reader = some (datum, rest)) :
    datum.length = kind.size := by
  obtain ⟨v, rfl⟩ := isValue
  cases v with
  | byte v => exact size_readByte reader datum rest read
  | word v => exact size_readWord reader datum rest read
  | big v => exact size_readSegment reader datum rest read
  | real v => exact size_readSegment reader datum rest read

/-- Values of one kind are read back together. -/
theorem readData_values {kind : DataKind} {values : List Value}
    (kinds : ∀ v ∈ values, v.kind = kind) (rest : Stream) :
    DataSection.readData kind.read values.length (values.flatMap Value.bytes ++ rest) =
      (values.map Value.cells, some rest) := by
  induction values with
  | nil => rfl
  | cons v values ih =>
      obtain ⟨rfl, others⟩ := List.forall_mem_cons.mp kinds
      rw [List.flatMap_cons, List.append_assoc, List.length_cons, DataSection.readData,
        read_value]
      dsimp only
      rw [ih others]
      rfl

end Values

section Leading

variable (setting : Setting)

def runItems (items : ℕ) (c : Config) (reader : Stream) : State :=
  turns (readDataItem setting) items (.reading { c with reader })

/-- The bytes take the reader from a configuration to another one, whatever follows them. -/
def Leads (bytes : List UInt8) (c c' : Config) : Prop :=
  ∀ rest, ∃ items, runItems setting items c (bytes ++ rest) = .reading { c' with reader := rest }

/-- The reader throws before it is behind the bytes. -/
def Throws (bytes : List UInt8) (c : Config) : Prop :=
  ∀ rest, ∃ items memory, runItems setting items c (bytes ++ rest) = .thrown memory

variable {setting} {bytes more : List UInt8} {c c' c'' : Config}

theorem turns_add (turn : Config → State) (count further : ℕ) (state : State) :
    turns turn (count + further) state = turns turn further (turns turn count state) := by
  induction count generalizing state with
  | zero =>
      rw [Nat.zero_add]
      rfl
  | succ count ih =>
      rw [Nat.add_right_comm]
      cases state with
      | reading config => exact ih (turn config)
      | finished memory reader => cases further <;> rfl
      | thrown memory => cases further <;> rfl
      | undefined => cases further <;> rfl

theorem Leads.refl (c : Config) : Leads setting [] c c :=
  fun _ => ⟨0, rfl⟩

theorem Leads.trans (first : Leads setting bytes c c') (second : Leads setting more c' c'') :
    Leads setting (bytes ++ more) c c'' := by
  intro rest
  obtain ⟨items, isFirst⟩ := first (more ++ rest)
  obtain ⟨further, isSecond⟩ := second rest
  refine ⟨items + further, ?_⟩
  unfold runItems at isFirst isSecond ⊢
  rw [turns_add, List.append_assoc, isFirst, isSecond]

theorem Leads.throws (first : Leads setting bytes c c') (second : Throws setting more c') :
    Throws setting (bytes ++ more) c := by
  intro rest
  obtain ⟨items, isFirst⟩ := first (more ++ rest)
  obtain ⟨further, memory, isSecond⟩ := second rest
  refine ⟨items + further, memory, ?_⟩
  unfold runItems at isFirst isSecond ⊢
  rw [turns_add, List.append_assoc, isFirst, isSecond]

theorem Throws.append (throws : Throws setting bytes c) (more : List UInt8) :
    Throws setting (bytes ++ more) c := by
  intro rest
  rw [List.append_assoc]
  exact throws (more ++ rest)

theorem leads_item (isItem : ∀ rest, readDataItem setting { c with reader := bytes ++ rest } =
    .reading { c' with reader := rest }) : Leads setting bytes c c' :=
  fun rest => ⟨1, isItem rest⟩

theorem throws_item (isItem : ∀ rest, ∃ memory,
    readDataItem setting { c with reader := bytes ++ rest } = .thrown memory) :
    Throws setting bytes c :=
  fun rest => ⟨1, isItem rest⟩

/-- An item is read for its kind. -/
theorem readDataItem_at {kind : DataKind} {n : ℕ} {off : ℤ} {head behind : List UInt8}
    (isHead : disdata kind n = some head) (isOffset : disoffset off = some behind)
    (inRange : InRange off) (rest : Stream) :
    readDataItem setting { c with reader := head ++ (behind ++ rest) } =
      (let config := { c with reader := rest }
      match kind.datumType with
      | .valueBit8 => dataLoop readByte config n (c.base.plus off) rest c.memory
      | .valueBit32 => dataLoop readWord config n (c.base.plus off) rest c.memory
      | .utfString => utfString n (c.base.plus off) config
      | .valueReal64 | .valueBit64 =>
          dataLoop readSegment config n (c.base.plus off) rest c.memory
      | .array => array setting (c.base.plus off) config
      | .setArray => setArray (c.base.plus off) config
      | .restoreLoadAddress => restoreLoadAddress config) := by
  unfold readDataItem
  dsimp only
  rw [readHeader_item isHead isOffset inRange]
  cases kind <;> rfl

end Leading

def Output.size (s : Output) : ℕ :=
  (s.lastkind.map DataKind.size).getD 0

/-- The values that are kept back. -/
structure Keeps (s : Output) (values : List Value) : Prop where
  kinds : ∀ v ∈ values, s.lastkind = some v.kind
  cache : s.cache = values.flatMap Value.bytes
  ndatum : s.ndatum = values.length
  inRange : values ≠ [] → InRange s.startoff
  behind : s.lastkind ≠ none → s.lastoff = s.startoff + values.length * s.size

section Denoting

variable (setting : Setting) (start : Config)

/-- What has been written and is kept back takes the reader from the start to a configuration. -/
def Denotes (s : Output) (c : Config) : Prop :=
  ∃ before values, Leads setting s.written start before ∧ Keeps s values ∧
    Fits before.memory (before.base.plus s.startoff) s.size (values.map Value.cells) ∧
    c = { before with
      memory := writeData (before.base.plus s.startoff) s.size (values.map Value.cells)
        before.memory }

/-- Nothing is kept back. -/
structure Flushed (s : Output) (c : Config) : Prop where
  leads : Leads setting s.written start c
  lastkind : s.lastkind = none
  cache : s.cache = []
  ndatum : s.ndatum = 0

variable {setting start} {s s' : Output} {c : Config}

theorem Flushed.denotes (flushed : Flushed setting start s c) : Denotes setting start s c := by
  refine ⟨c, [], flushed.leads, ⟨by simp, flushed.cache, flushed.ndatum, by simp, ?_⟩, Or.inl rfl,
    rfl⟩
  intro some
  exact absurd flushed.lastkind some

theorem Output.put_eq {bytes : Option (List UInt8)} (isPut : s.put bytes = some s') :
    ∃ more, bytes = some more ∧ s' = { s with written := s.written ++ more } := by
  obtain ⟨more, isMore, rfl⟩ := Option.map_eq_some_iff.mp isPut
  exact ⟨more, isMore, rfl⟩

/-- An item with the values that have been kept back. -/
theorem leads_values {kind : DataKind} {values : List Value} {offset : ℤ}
    {head behind : List UInt8} (kinds : ∀ v ∈ values, v.kind = kind) (nonempty : values ≠ [])
    (isHead : disdata kind values.length = some head) (isOffset : disoffset offset = some behind)
    (inRange : InRange offset)
    (fits : Fits c.memory (c.base.plus offset) kind.size (values.map Value.cells)) :
    Leads setting (head ++ (behind ++ values.flatMap Value.bytes)) c { c with
      memory := writeData (c.base.plus offset) kind.size (values.map Value.cells) c.memory } := by
  apply leads_item
  intro rest
  have isValue : ∃ v : Value, v.kind = kind := by
    obtain ⟨v, member⟩ := List.exists_mem_of_ne_nil values nonempty
    exact ⟨v, kinds v member⟩
  have isData := dataLoop_eq (size_read kind isValue)
    { c with reader := values.flatMap Value.bytes ++ rest } values.length (c.base.plus offset)
    (values.flatMap Value.bytes ++ rest) c.memory
  rw [readData_values kinds, if_pos fits] at isData
  rw [List.append_assoc, List.append_assoc, readDataItem_at isHead isOffset inRange]
  obtain ⟨v, rfl⟩ := isValue
  cases v <;> exact isData

/-- The values that are kept back are written. -/
theorem Denotes.putCache (denotes : Denotes setting start s c) (isPut : s.putCache = some s') :
    Leads setting s'.written start c := by
  obtain ⟨before, values, leads, keeps, fits, rfl⟩ := denotes
  cases values with
  | nil =>
      have empty : s.cache.length = 0 := by
        rw [keeps.cache]
        rfl
      have same : s' = s := by
        unfold Output.putCache at isPut
        rw [empty] at isPut
        cases isKind : s.lastkind <;> simp [isKind] at isPut <;> exact isPut.symm
      rw [same]
      exact leads
  | cons v values =>
      have isKind := keeps.kinds v List.mem_cons_self
      have nonempty : s.cache.length ≠ 0 := by
        rw [keeps.cache, List.flatMap_cons, List.length_append, length_bytes]
        cases v <;> simp [Value.kind, DataKind.size]
      have kinds : ∀ w ∈ v :: values, w.kind = v.kind := by
        intro w member
        have same := keeps.kinds w member
        rw [isKind] at same
        exact (Option.some.inj same).symm
      unfold Output.putCache at isPut
      rw [isKind] at isPut
      dsimp only at isPut
      rw [if_pos nonempty] at isPut
      obtain ⟨first, isFirst, isPut⟩ := Option.bind_eq_some_iff.mp isPut
      obtain ⟨second, isSecond, isPut⟩ := Option.bind_eq_some_iff.mp isPut
      obtain ⟨head, isHead, rfl⟩ := Output.put_eq isFirst
      obtain ⟨behind, isOffset, rfl⟩ := Output.put_eq isSecond
      obtain ⟨cache, isCache, rfl⟩ := Output.put_eq isPut
      cases isCache
      dsimp only at isHead isOffset ⊢
      have isSize : s.size = v.kind.size := by
        rw [Output.size, isKind]
        rfl
      rw [isSize] at fits ⊢
      rw [keeps.ndatum] at isHead
      rw [List.append_assoc, List.append_assoc, keeps.cache]
      exact leads.trans (leads_values kinds (List.cons_ne_nil _ _) isHead isOffset
        (keeps.inRange (List.cons_ne_nil _ _)) fits)

/-- `disflush(-1, -1, 0)`. -/
theorem Denotes.flush (denotes : Denotes setting start s c)
    (isFlushed : disflush none (-1) 0 s = some s') : Flushed setting start s' c := by
  unfold disflush at isFlushed
  split_ifs at isFlushed with turns
  · obtain ⟨after, isPut, isAfter⟩ := Option.bind_eq_some_iff.mp isFlushed
    have leads := denotes.putCache isPut
    cases isAfter
    exact ⟨leads, rfl, rfl, rfl⟩
  · cases isFlushed
    rw [not_or, not_not, not_not] at turns
    obtain ⟨before, values, leads, keeps, fits, rfl⟩ := denotes
    have empty : values = [] := by
      apply List.eq_nil_iff_forall_not_mem.mpr
      intro v member
      have isKind := keeps.kinds v member
      rw [← turns.1] at isKind
      cases isKind
    subst empty
    exact ⟨leads, turns.1.symm, keeps.cache, keeps.ndatum⟩

theorem writeData_append (dataDest : DataSection.Address) (size : ℕ)
    (data others : List (List Cell)) (memory : Memory) :
    writeData dataDest size (data ++ others) memory =
      writeData (dataDest.plus (data.length * size)) size others
        (writeData dataDest size data memory) := by
  induction data generalizing dataDest memory with
  | nil =>
      rw [List.nil_append, List.length_nil, Nat.cast_zero, zero_mul, plus_zero]
      rfl
  | cons datum data ih =>
      have behind : (dataDest.plus size).plus (data.length * size) =
          dataDest.plus ((datum :: data).length * size) := by
        rw [plus_plus, List.length_cons]
        congr 1
        push_cast
        ring
      rw [List.cons_append, writeData_cons, writeData_cons, ih, behind]

theorem writeData_singleton (dataDest : DataSection.Address) (size : ℕ) (datum : List Cell)
    (memory : Memory) :
    writeData dataDest size [datum] memory = memory.write dataDest datum := by
  rw [writeData_cons]
  rfl

theorem holds_writeData_iff {dataDest other : DataSection.Address} {size length : ℕ}
    {data : List (List Cell)} (sizes : ∀ datum ∈ data, datum.length = size) {memory : Memory}
    (fits : Fits memory dataDest size data) :
    (writeData dataDest size data memory).Holds other length ↔ memory.Holds other length := by
  induction data generalizing dataDest memory with
  | nil => rfl
  | cons datum data ih =>
      obtain ⟨isSize, others⟩ := List.forall_mem_cons.mp sizes
      obtain ⟨holds, rest⟩ := (holds_and_fits_iff memory dataDest data isSize).mpr fits
      rw [writeData_cons, ih others rest, holds_write_iff holds]

/-- A value is kept back. -/
theorem Denotes.discache {v : Value} {off : ℤ} (denotes : Denotes setting start s c)
    (inRange : InRange off) (holds : c.memory.Holds (c.base.plus off) v.kind.size)
    (isWritten : discache v.kind off v.bytes s = some s') :
    Denotes setting start s' { c with
      memory := c.memory.write (c.base.plus off) v.cells } := by
  obtain ⟨after, isFlushed, isAfter⟩ := Option.bind_eq_some_iff.mp isWritten
  unfold disflush at isFlushed
  split_ifs at isFlushed with turns
  · obtain ⟨put, isPut, isFlushed⟩ := Option.bind_eq_some_iff.mp isFlushed
    have leads := denotes.putCache isPut
    cases isFlushed
    cases isAfter
    refine ⟨c, [v], leads, ⟨?_, ?_, rfl, fun _ => inRange, ?_⟩, Or.inr ?_, ?_⟩
    · simp
    · simp
    · intro _
      dsimp only [Output.size, Option.map_some, Option.getD_some]
      rw [length_bytes, List.length_singleton, Nat.cast_one, one_mul]
    · dsimp only [Output.size, Option.map_some, Option.getD_some]
      rw [List.length_map, List.length_singleton, Nat.one_mul]
      exact holds
    · rw [List.map_singleton, writeData_singleton]
  · cases isFlushed
    cases isAfter
    rw [not_or, not_not, not_not] at turns
    obtain ⟨isKind, isOff⟩ := turns
    obtain ⟨before, values, leads, keeps, fits, rfl⟩ := denotes
    have isSize : s.size = v.kind.size := by
      rw [Output.size, ← isKind]
      rfl
    have isBehind : off = s.startoff + values.length * s.size := by
      rw [isOff]
      exact keeps.behind (by rw [← isKind]; simp)
    have sizes : ∀ datum ∈ values.map Value.cells, datum.length = s.size := by
      intro datum member
      obtain ⟨w, isValue, rfl⟩ := List.mem_map.mp member
      rw [length_cells, Output.size, keeps.kinds w isValue]
      rfl
    rw [holds_writeData_iff sizes fits] at holds
    dsimp only at holds
    have next : (before.base.plus s.startoff).plus (values.length * s.size) =
        before.base.plus off := by
      rw [plus_plus, ← isBehind]
    refine ⟨before, values ++ [v], leads, ⟨?_, ?_, ?_, ?_, ?_⟩, Or.inr ?_, ?_⟩
    · intro w member
      rcases List.mem_append.mp member with isOld | isNew
      · exact keeps.kinds w isOld
      · rw [List.mem_singleton.mp isNew]
        exact isKind.symm
    · dsimp only
      rw [keeps.cache, List.flatMap_append, List.flatMap_singleton]
    · dsimp only
      rw [keeps.ndatum, List.length_append]
      rfl
    · intro _
      by_cases empty : values = []
      · rw [isBehind, empty, List.length_nil, Nat.cast_zero, zero_mul, add_zero] at inRange
        exact inRange
      · exact keeps.inRange empty
    · intro _
      dsimp only [Output.size]
      rw [length_bytes, ← isSize, isBehind, List.length_append, List.length_singleton]
      unfold Output.size
      push_cast
      ring
    · have total : ((values ++ [v]).map Value.cells).length * s.size =
          values.length * s.size + s.size := by
        rw [List.length_map, List.length_append, List.length_singleton, Nat.add_mul, Nat.one_mul]
      show before.memory.Holds (before.base.plus s.startoff) (_ * s.size)
      rw [total]
      rw [isBehind, ← isSize] at holds
      rcases fits with empty | fits
      · rw [List.map_eq_nil_iff.mp empty] at holds ⊢
        simpa using holds
      · rw [List.length_map] at fits
        simp only [Memory.Holds, DataSection.Address.plus] at fits holds ⊢
        omega
    · show _ = { before with memory := writeData _ s.size _ _ }
      rw [List.map_append, List.map_singleton, writeData_append, writeData_singleton,
        List.length_map, next]

end Denoting

section Growing

variable {setting : Setting} {s s' : Output} {c : Config}

theorem put_grows {bytes : Option (List UInt8)} (isPut : s.put bytes = some s') :
    s.written <+: s'.written := by
  obtain ⟨more, -, rfl⟩ := Output.put_eq isPut
  exact List.prefix_append _ _

theorem putCache_grows (isPut : s.putCache = some s') : s.written <+: s'.written := by
  unfold Output.putCache at isPut
  split at isPut
  · split_ifs at isPut
    · obtain ⟨first, isFirst, isPut⟩ := Option.bind_eq_some_iff.mp isPut
      obtain ⟨second, isSecond, isPut⟩ := Option.bind_eq_some_iff.mp isPut
      exact (put_grows isFirst).trans ((put_grows isSecond).trans (put_grows isPut))
    · cases isPut
      exact List.prefix_rfl
  · cases isPut
    exact List.prefix_rfl

theorem disflush_grows {kind : Option DataKind} {off : ℤ} {size : ℕ}
    (isFlushed : disflush kind off size s = some s') : s.written <+: s'.written := by
  unfold disflush at isFlushed
  split_ifs at isFlushed
  · obtain ⟨after, isPut, isAfter⟩ := Option.bind_eq_some_iff.mp isFlushed
    have grows := putCache_grows isPut
    cases isAfter
    exact grows
  · cases isFlushed
    exact List.prefix_rfl

theorem discache_grows {kind : DataKind} {off : ℤ} {bytes : List UInt8}
    (isWritten : discache kind off bytes s = some s') : s.written <+: s'.written := by
  obtain ⟨after, isFlushed, isAfter⟩ := Option.bind_eq_some_iff.mp isWritten
  have grows := disflush_grows isFlushed
  cases isAfter
  exact grows

theorem disstring_grows {off : ℤ} {name : List UInt8} (isWritten : disstring off name s = some s') :
    s.written <+: s'.written := by
  obtain ⟨first, isFirst, isWritten⟩ := Option.bind_eq_some_iff.mp isWritten
  obtain ⟨second, isSecond, isWritten⟩ := Option.bind_eq_some_iff.mp isWritten
  obtain ⟨third, isThird, isWritten⟩ := Option.bind_eq_some_iff.mp isWritten
  exact (disflush_grows isFirst).trans ((put_grows isSecond).trans
    ((put_grows isThird).trans (put_grows isWritten)))

theorem disarray_grows {off : ℤ} {desc left : Word}
    (isWritten : disarray off desc left s = some s') : s.written <+: s'.written := by
  obtain ⟨first, isFirst, isWritten⟩ := Option.bind_eq_some_iff.mp isWritten
  obtain ⟨second, isSecond, isWritten⟩ := Option.bind_eq_some_iff.mp isWritten
  obtain ⟨third, isThird, isWritten⟩ := Option.bind_eq_some_iff.mp isWritten
  obtain ⟨fourth, isFourth, isWritten⟩ := Option.bind_eq_some_iff.mp isWritten
  exact (disflush_grows isFirst).trans ((put_grows isSecond).trans ((put_grows isThird).trans
    ((put_grows isFourth).trans (put_grows isWritten))))

theorem disindex_grows {off : ℤ} (isWritten : disindex off s = some s') :
    s.written <+: s'.written := by
  unfold disindex at isWritten
  obtain ⟨first, isFirst, isWritten⟩ := Option.bind_eq_some_iff.mp isWritten
  obtain ⟨second, isSecond, isWritten⟩ := Option.bind_eq_some_iff.mp isWritten
  exact (put_grows isFirst).trans ((put_grows isSecond).trans (put_grows isWritten))

theorem dispop_grows (isWritten : dispop s = some s') : s.written <+: s'.written := by
  obtain ⟨first, isFirst, isWritten⟩ := Option.bind_eq_some_iff.mp isWritten
  obtain ⟨second, isSecond, isWritten⟩ := Option.bind_eq_some_iff.mp isWritten
  exact (disflush_grows isFirst).trans ((put_grows isSecond).trans (put_grows isWritten))

mutual

theorem emit_grows : ∀ (piece : Piece) {s s' : Output}, piece.emit s = some s' →
    s.written <+: s'.written
  | .value _ _, _, _, isWritten => discache_grows (by rwa [Piece.emit] at isWritten)
  | .text _ _, _, _, isWritten => disstring_grows (by rwa [Piece.emit] at isWritten)
  | .array _ _ _, _, _, isWritten => disarray_grows (by rwa [Piece.emit] at isWritten)
  | .elements _ _ _ pieces, _, _, isWritten => by
      rw [Piece.emit] at isWritten
      obtain ⟨first, isFirst, isWritten⟩ := Option.bind_eq_some_iff.mp isWritten
      obtain ⟨second, isSecond, isWritten⟩ := Option.bind_eq_some_iff.mp isWritten
      obtain ⟨third, isThird, isWritten⟩ := Option.bind_eq_some_iff.mp isWritten
      exact (disarray_grows isFirst).trans ((disindex_grows isSecond).trans
        ((emits_grows pieces isThird).trans (dispop_grows isWritten)))

theorem emits_grows : ∀ (pieces : List Piece) {s s' : Output}, emits pieces s = some s' →
    s.written <+: s'.written
  | [], _, _, isWritten => by
      rw [emits] at isWritten
      cases isWritten
      exact List.prefix_rfl
  | piece :: pieces, _, _, isWritten => by
      rw [emits] at isWritten
      obtain ⟨first, isFirst, isWritten⟩ := Option.bind_eq_some_iff.mp isWritten
      exact (emit_grows piece isFirst).trans (emits_grows pieces isWritten)

end

theorem Throws.mono (throws : Throws setting s.written c) (grows : s.written <+: s'.written) :
    Throws setting s'.written c := by
  obtain ⟨more, isMore⟩ := grows
  rw [← isMore]
  exact throws.append more

end Growing

def Piece.offset : Piece → ℤ
  | .value offset _ | .text offset _ | .array offset _ _ | .elements offset _ _ _ => offset

def Piece.size : Piece → ℕ
  | .value _ v => v.kind.size
  | .text _ _ | .array _ _ _ | .elements _ _ _ _ => pointerSize

/-- A pointer to a new object. -/
def place (object : Object) (address : DataSection.Address) (memory : Memory) : Memory :=
  (memory.alloc object).write address (pointerCells memory.objects.length)

section Storing

variable (setting : Setting)

/-- The size of the elements of an array. -/
def arraySize (desc left : Word) : ℕ :=
  match setting.typeAt desc with
  | some type => asSize (left.toInt * type.sizeInBytes.toInt)
  | none => 0

def arrayObject (desc left : Word) : Object :=
  .array ((setting.typeAt desc).elim 0 TypeDescriptor.sizeInBytes) left
    (List.replicate (arraySize setting desc left) (.byte 0))

mutual

def Piece.store : Piece → (base : DataSection.Address) → Memory → Memory
  | .value offset v, base, memory => memory.write (base.plus offset) v.cells
  | .text offset name, base, memory => place (.string name) (base.plus offset) memory
  | .array offset desc left, base, memory =>
      place (arrayObject setting desc left) (base.plus offset) memory
  | .elements offset desc left pieces, base, memory =>
      stores pieces ⟨.elements memory.objects.length, 0⟩
        (place (arrayObject setting desc left) (base.plus offset) memory)

def stores : List Piece → (base : DataSection.Address) → Memory → Memory
  | [], _, memory => memory
  | piece :: pieces, base, memory => stores pieces base (piece.store base memory)

end

mutual

/-- Strings are made and arrays are allocated, and the first element of an array is there if it
is selected. -/
def Piece.Loads : Piece → Prop
  | .value _ _ => True
  | .text _ name => (VmString.ofUtf8 name).isOk = true
  | .array _ desc left => setting.allocates (arraySize setting desc left) = true
  | .elements _ desc left pieces =>
      setting.allocates (arraySize setting desc left) = true ∧ 0 < left.toInt ∧ Loads pieces

def Loads : List Piece → Prop
  | [] => True
  | piece :: pieces => piece.Loads ∧ Loads pieces

end

mutual

/-- Arrays have descriptors, are not nested too deep, and have room for their elements. -/
def Piece.Laid : Piece → (depth : ℕ) → Prop
  | .value _ _, _ | .text _ _, _ => True
  | .array _ desc _, _ => (setting.typeAt desc).isSome = true
  | .elements _ desc left pieces, depth => (setting.typeAt desc).isSome = true ∧
      depth < arrayAddressStackSize ∧ arraySize setting desc left < 2 ^ 31 ∧
      Laid pieces 0 (arraySize setting desc left) (depth + 1)

/-- Pieces one behind the other, from one offset on and before another one. -/
def Laid : List Piece → (first last : ℤ) → (depth : ℕ) → Prop
  | [], first, last, _ => first ≤ last
  | piece :: pieces, first, last, depth => first ≤ piece.offset ∧ piece.Laid depth ∧
      Laid pieces (piece.offset + piece.size) last depth

end

end Storing

section Placing

variable {setting : Setting} {memory : Memory} {address other : DataSection.Address}
  {object : Object}
  {size : ℕ}

theorem length_pointerCells (object : ℕ) : (pointerCells object).length = pointerSize := by
  simp [pointerCells]

theorem place_holds (holds : memory.Holds address pointerSize)
    (isOther : memory.Holds other size) : (place object address memory).Holds other size := by
  have allocated := holds_alloc object holds
  rw [← length_pointerCells memory.objects.length] at allocated
  exact (holds_write_iff allocated).mpr (holds_alloc object isOther)

theorem place_holds_new (holds : memory.Holds address pointerSize) :
    (place object address memory).Holds ⟨.elements memory.objects.length, 0⟩
      object.cells.length := by
  have allocated := holds_alloc object holds
  rw [← length_pointerCells memory.objects.length] at allocated
  apply (holds_write_iff allocated).mpr
  refine ⟨le_rfl, ?_⟩
  simp [Memory.cells, Memory.alloc]

/-- A place that holds something is not in an object that is not there yet. -/
theorem old_of_holds (holds : memory.Holds address pointerSize) {number : ℕ}
    (isElements : address.region = .elements number) : number < memory.objects.length := by
  by_contra new
  obtain ⟨isNat, inside⟩ := holds
  rw [isElements] at inside
  simp only [Memory.cells, List.getElem?_eq_none (Nat.not_lt.mp new), Option.map_none,
    Option.getD_none, List.length_nil, pointerSize] at inside
  omega

theorem place_new (holds : memory.Holds address pointerSize) :
    (place object address memory).objects[memory.objects.length]? = some object := by
  unfold place Memory.write Memory.alloc
  cases isRegion : address.region with
  | moduleData => simp
  | elements number =>
      have old := old_of_holds holds isRegion
      simp [old.ne]

theorem take_overwrite {cells data : List Cell} {offset : ℕ}
    (inside : offset + data.length ≤ cells.length) :
    ((overwrite cells offset data).drop offset).take data.length = data := by
  have isLength : (cells.take offset).length = offset := by
    rw [List.length_take]
    omega
  unfold overwrite
  rw [List.append_assoc, List.drop_left' isLength, List.take_left]

/-- What has been written is there. -/
theorem read_write {data : List Cell} (holds : memory.Holds address data.length)
    (known : ∀ number, address.region = .elements number →
      ∃ elementSize length cells,
        memory.objects[number]? = some (.array elementSize length cells)) :
    (((memory.write address data).cells address.region).drop address.offset.toNat).take
      data.length = data := by
  obtain ⟨isNat, inside⟩ := holds
  unfold Memory.write
  cases isRegion : address.region with
  | moduleData =>
      rw [isRegion] at inside
      simp only [Memory.cells] at inside ⊢
      exact take_overwrite (by omega)
  | elements number =>
      obtain ⟨elementSize, length, cells, isObject⟩ := known number isRegion
      rw [isRegion] at inside
      simp only [Memory.cells, isObject, Option.map_some, Option.getD_some, Object.cells] at inside
      simp only [Memory.cells, List.getElem?_modify, isObject, if_true, Option.map_eq_map,
        Option.map_some, Option.getD_some, Object.overwrite, Object.cells]
      exact take_overwrite (by omega)

theorem known_of_holds (holds : memory.Holds address size) (nonempty : 0 < size) {number : ℕ}
    (isElements : address.region = .elements number) :
    ∃ elementSize length cells,
      memory.objects[number]? = some (.array elementSize length cells) := by
  obtain ⟨isNat, inside⟩ := holds
  rw [isElements] at inside
  simp only [Memory.cells] at inside
  cases isObject : memory.objects[number]? with
  | none =>
      simp only [isObject, Option.map_none, Option.getD_none, List.length_nil] at inside
      omega
  | some found =>
      cases found with
      | string text =>
          simp only [isObject, Option.map_some, Option.getD_some, Object.cells,
            List.length_nil] at inside
          omega
      | array elementSize length cells => exact ⟨elementSize, length, cells, rfl⟩

theorem place_pointerAt (holds : memory.Holds address pointerSize) :
    (place object address memory).pointerAt address = some memory.objects.length := by
  have isPlaced := @place_holds memory address address object pointerSize holds holds
  have allocated := holds_alloc object holds
  have found : (((place object address memory).cells address.region).drop
      address.offset.toNat).take pointerSize = pointerCells memory.objects.length := by
    rw [← length_pointerCells memory.objects.length] at allocated ⊢
    apply read_write allocated
    intro number isElements
    apply known_of_holds (holds_alloc object holds) (by decide) isElements
  unfold Memory.pointerAt
  rw [if_pos isPlaced]
  dsimp only
  rw [found]
  show (if pointerCells _ = pointerCells _ then _ else _) = _
  rw [if_pos rfl]

end Placing

section Items

variable {setting : Setting} {start : Config} {s s' : Output} {c c' : Config} {off : ℤ}

theorem Flushed.put {more : List UInt8} (flushed : Flushed setting start s c)
    (leads : Leads setting more c c') :
    Flushed setting start { s with written := s.written ++ more } c' :=
  ⟨flushed.leads.trans leads, flushed.lastkind, flushed.cache, flushed.ndatum⟩

/-- A string is written, and made when it is read. -/
theorem Denotes.disstring {name : List UInt8} (denotes : Denotes setting start s c)
    (inRange : InRange off) (holds : c.memory.Holds (c.base.plus off) pointerSize)
    (isWritten : disstring off name s = some s') :
    ((VmString.ofUtf8 name).isOk = true → Flushed setting start s' { c with
        memory := place (.string name) (c.base.plus off) c.memory }) ∧
      (¬ (VmString.ofUtf8 name).isOk = true → Throws setting s'.written start) := by
  obtain ⟨first, isFirst, isWritten⟩ := Option.bind_eq_some_iff.mp isWritten
  obtain ⟨second, isSecond, isWritten⟩ := Option.bind_eq_some_iff.mp isWritten
  obtain ⟨third, isThird, isWritten⟩ := Option.bind_eq_some_iff.mp isWritten
  have flushed := denotes.flush isFirst
  obtain ⟨head, isHead, rfl⟩ := Output.put_eq isSecond
  obtain ⟨behind, isOffset, rfl⟩ := Output.put_eq isThird
  obtain ⟨text, isText, rfl⟩ := Output.put_eq isWritten
  cases isText
  have isItem := fun rest => @readDataItem_at setting c .defs name.length off head behind isHead
    isOffset inRange (name ++ rest)
  dsimp only [DataKind.datumType] at isItem
  unfold utfString at isItem
  simp only [getNextBytes_append] at isItem
  dsimp only
  rw [List.append_assoc, List.append_assoc]
  constructor
  · intro isMade
    apply flushed.put
    apply leads_item
    intro rest
    rw [List.append_assoc, List.append_assoc, isItem]
    cases isString : VmString.ofUtf8 name with
    | error exception =>
        rw [isString] at isMade
        cases isMade
    | ok string => exact if_pos holds
  · intro fails
    apply flushed.leads.throws
    apply throws_item
    intro rest
    rw [List.append_assoc, List.append_assoc, isItem]
    cases isString : VmString.ofUtf8 name with
    | error exception => exact ⟨_, rfl⟩
    | ok string =>
        rw [isString] at fails
        exact absurd rfl fails

/-- An array is written, and allocated when it is read. -/
theorem Denotes.disarray {desc left : Word} (denotes : Denotes setting start s c)
    (inRange : InRange off) (holds : c.memory.Holds (c.base.plus off) pointerSize)
    (described : (setting.typeAt desc).isSome = true)
    (isWritten : disarray off desc left s = some s') :
    (setting.allocates (arraySize setting desc left) = true → Flushed setting start s' { c with
        memory := place (arrayObject setting desc left) (c.base.plus off) c.memory }) ∧
      (¬ setting.allocates (arraySize setting desc left) = true →
        Throws setting s'.written start) := by
  obtain ⟨first, isFirst, isWritten⟩ := Option.bind_eq_some_iff.mp isWritten
  obtain ⟨second, isSecond, isWritten⟩ := Option.bind_eq_some_iff.mp isWritten
  obtain ⟨third, isThird, isWritten⟩ := Option.bind_eq_some_iff.mp isWritten
  obtain ⟨fourth, isFourth, isWritten⟩ := Option.bind_eq_some_iff.mp isWritten
  have flushed := denotes.flush isFirst
  obtain ⟨head, isHead, rfl⟩ := Output.put_eq isSecond
  obtain ⟨behind, isOffset, rfl⟩ := Output.put_eq isThird
  obtain ⟨descWord, isDesc, rfl⟩ := Output.put_eq isFourth
  obtain ⟨leftWord, isLeft, rfl⟩ := Output.put_eq isWritten
  cases isDesc
  cases isLeft
  obtain ⟨type, isType⟩ := Option.isSome_iff_exists.mp described
  have isItem := fun rest => @readDataItem_at setting c .defa 1 off head behind isHead
    isOffset inRange (disword desc ++ (disword left ++ rest))
  dsimp only [DataKind.datumType] at isItem
  unfold array at isItem
  simp only [readNextWord_disword, isType, Bool.true_eq_false, and_false, if_false] at isItem
  have isSize : arraySize setting desc left = asSize (left.toInt * type.sizeInBytes.toInt) := by
    rw [arraySize, isType]
  dsimp only
  rw [List.append_assoc, List.append_assoc, List.append_assoc, isSize]
  constructor
  · intro allocates
    apply flushed.put
    apply leads_item
    intro rest
    rw [List.append_assoc, List.append_assoc, List.append_assoc, isItem, allocates]
    have isObject : arrayObject setting desc left = .array type.sizeInBytes left
        (List.replicate (asSize (left.toInt * type.sizeInBytes.toInt)) (.byte 0)) := by
      rw [arrayObject, isSize, isType]
      rfl
    rw [isObject]
    exact if_pos holds
  · intro fails
    apply flushed.leads.throws
    apply throws_item
    intro rest
    rw [List.append_assoc, List.append_assoc, List.append_assoc, isItem,
      if_pos (Bool.eq_false_of_not_eq_true fails)]
    exact ⟨_, rfl⟩

/-- The first element of an array is selected. -/
theorem Flushed.disindex {object : ℕ} {elementSize left : Word} {cells : List Cell}
    (flushed : Flushed setting start s c) (inRange : InRange off)
    (isPointer : c.memory.pointerAt (c.base.plus off) = some object)
    (isArray : c.memory.objects[object]? = some (.array elementSize left cells))
    (room : c.arrayStack.length < arrayAddressStackSize)
    (isWritten : disindex off s = some s') :
    (0 < left.toInt → Flushed setting start s' { c with
        base := ⟨.elements object, 0⟩
        arrayStack := c.base :: c.arrayStack }) ∧
      (¬ 0 < left.toInt → Throws setting s'.written start) := by
  unfold DataWriter.disindex at isWritten
  obtain ⟨first, isFirst, isWritten⟩ := Option.bind_eq_some_iff.mp isWritten
  obtain ⟨second, isSecond, isWritten⟩ := Option.bind_eq_some_iff.mp isWritten
  obtain ⟨head, isHead, rfl⟩ := Output.put_eq isFirst
  obtain ⟨behind, isOffset, rfl⟩ := Output.put_eq isSecond
  obtain ⟨index, isIndex, rfl⟩ := Output.put_eq isWritten
  cases isIndex
  have isItem := fun rest => @readDataItem_at setting c .dind 1 off head behind isHead
    isOffset inRange (disword 0 ++ rest)
  dsimp only [DataKind.datumType] at isItem
  have isZero : (0 : Word).toInt = 0 := rfl
  unfold setArray at isItem
  simp only [isPointer, isArray, readNextWord_disword, isZero, lt_irrefl, false_or,
    Nat.not_le.mpr room, or_false] at isItem
  dsimp only
  rw [List.append_assoc, List.append_assoc]
  constructor
  · intro nonempty
    apply flushed.put
    apply leads_item
    intro rest
    rw [List.append_assoc, List.append_assoc, isItem, if_neg (not_le.mpr nonempty)]
    rfl
  · intro empty
    apply flushed.leads.throws
    apply throws_item
    intro rest
    rw [List.append_assoc, List.append_assoc, isItem, if_pos (not_lt.mp empty)]
    exact ⟨_, rfl⟩

/-- The reader is behind the elements of an array. -/
theorem Denotes.dispop {base : DataSection.Address} {stack : List DataSection.Address}
    (denotes : Denotes setting start s c) (isStack : c.arrayStack = base :: stack)
    (isWritten : dispop s = some s') :
    Flushed setting start s' { c with
      base := base
      arrayStack := stack } := by
  obtain ⟨first, isFirst, isWritten⟩ := Option.bind_eq_some_iff.mp isWritten
  obtain ⟨second, isSecond, isWritten⟩ := Option.bind_eq_some_iff.mp isWritten
  have flushed := denotes.flush isFirst
  obtain ⟨head, isHead, rfl⟩ := Output.put_eq isSecond
  obtain ⟨behind, isOffset, rfl⟩ := Output.put_eq isWritten
  have isItem := fun rest => @readDataItem_at setting c .dapop 1 0 head behind isHead
    isOffset ⟨le_rfl, by decide⟩ rest
  dsimp only [DataKind.datumType] at isItem
  unfold restoreLoadAddress at isItem
  simp only [isStack] at isItem
  dsimp only
  rw [List.append_assoc]
  apply flushed.put
  apply leads_item
  intro rest
  rw [List.append_assoc, isStack, isItem]

end Items

section Pieces

variable {setting : Setting} {start : Config} {c : Config}

theorem Laid.le {pieces : List Piece} {first last : ℤ} {depth : ℕ}
    (laid : Laid setting pieces first last depth) : first ≤ last := by
  induction pieces generalizing first with
  | nil => exact laid
  | cons piece pieces ih =>
      obtain ⟨behind, -, rest⟩ := laid
      have inside := ih rest
      omega

/-- The first piece is inside of the block. -/
theorem Laid.head {piece : Piece} {pieces : List Piece} {first last : ℤ} {depth size : ℕ}
    (laid : Laid setting (piece :: pieces) first last depth) (isNat : 0 ≤ first)
    (inside : last ≤ size) (small : size < 2 ^ 31) {base : DataSection.Address}
    (isStart : base.offset = 0)
    {memory : Memory} (holds : memory.Holds base size) :
    InRange piece.offset ∧ memory.Holds (base.plus piece.offset) piece.size := by
  obtain ⟨behind, -, rest⟩ := laid
  have isLast := rest.le
  simp only [InRange, Memory.Holds, DataSection.Address.plus] at holds ⊢
  omega

theorem place_cells {desc left : Word} :
    (arrayObject setting desc left).cells.length = arraySize setting desc left := by
  simp [arrayObject, Object.cells]

mutual

/-- What pieces do to memory is inside of what is there. -/
theorem store_holds {depth : ℕ} : ∀ (piece : Piece) {base : DataSection.Address} {memory : Memory},
    piece.Laid setting depth → memory.Holds (base.plus piece.offset) piece.size →
      ∀ {other : DataSection.Address} {length : ℕ}, memory.Holds other length →
        (piece.store setting base memory).Holds other length
  | .value offset v, base, memory, _, holds, other, length, isOther => by
      rw [Piece.store]
      have isHeld : memory.Holds (base.plus offset) v.cells.length := by
        rw [length_cells]
        exact holds
      exact (holds_write_iff isHeld).mpr isOther
  | .text offset name, base, memory, _, holds, other, length, isOther => by
      rw [Piece.store]
      exact place_holds holds isOther
  | .array offset desc left, base, memory, _, holds, other, length, isOther => by
      rw [Piece.store]
      exact place_holds holds isOther
  | .elements offset desc left pieces, base, memory, laid, holds, other, length, isOther => by
      rw [Piece.store]
      obtain ⟨-, -, small, isLaid⟩ := laid
      have isNew := @place_holds_new memory (base.plus offset) (arrayObject setting desc left) holds
      rw [place_cells] at isNew
      exact stores_holds pieces isLaid le_rfl le_rfl small rfl isNew (place_holds holds isOther)

theorem stores_holds {size depth : ℕ} : ∀ (pieces : List Piece) {first last : ℤ}
    {base : DataSection.Address} {memory : Memory}, Laid setting pieces first last depth →
      0 ≤ first → last ≤ size →
      size < 2 ^ 31 → base.offset = 0 → memory.Holds base size →
        ∀ {other : DataSection.Address} {length : ℕ}, memory.Holds other length →
          (stores setting pieces base memory).Holds other length
  | [], _, _, _, _, _, _, _, _, _, _, _, _, isOther => isOther
  | piece :: pieces, first, last, base, memory, laid, isNat, inside, small, isStart, holds, other,
      length, isOther => by
      obtain ⟨inRange, isHeld⟩ := laid.head isNat inside small isStart holds
      obtain ⟨-, isLaid, rest⟩ := laid
      have isNext : 0 ≤ piece.offset + piece.size := by
        have positive := inRange.1
        omega
      rw [stores]
      exact stores_holds pieces rest isNext inside small isStart
        (store_holds piece isLaid isHeld holds)
        (store_holds piece isLaid isHeld isOther)

end

mutual

/-- A piece is written, and read back if its strings and arrays are made. -/
theorem emit_spec : ∀ (piece : Piece) {s s' : Output} {c : Config}, Denotes setting start s c →
    piece.Laid setting c.arrayStack.length → InRange piece.offset →
    c.memory.Holds (c.base.plus piece.offset) piece.size → piece.emit s = some s' →
    (piece.Loads setting → Denotes setting start s' { c with
        memory := piece.store setting c.base c.memory }) ∧
      (¬ piece.Loads setting → Throws setting s'.written start)
  | .value offset v, s, s', c, denotes, _, inRange, holds, isWritten => by
      rw [Piece.emit] at isWritten
      rw [Piece.store, Piece.Loads]
      exact ⟨fun _ => denotes.discache inRange holds isWritten, fun fails => absurd trivial fails⟩
  | .text offset name, s, s', c, denotes, _, inRange, holds, isWritten => by
      rw [Piece.emit] at isWritten
      rw [Piece.store, Piece.Loads]
      obtain ⟨loads, fails⟩ := denotes.disstring inRange holds isWritten
      exact ⟨fun isMade => (loads isMade).denotes, fails⟩
  | .array offset desc left, s, s', c, denotes, laid, inRange, holds, isWritten => by
      rw [Piece.emit] at isWritten
      rw [Piece.store, Piece.Loads]
      obtain ⟨loads, fails⟩ := denotes.disarray inRange holds laid isWritten
      exact ⟨fun isMade => (loads isMade).denotes, fails⟩
  | .elements offset desc left pieces, s, s', c, denotes, laid, inRange, holds, isWritten => by
      obtain ⟨described, room, small, isLaid⟩ := laid
      rw [Piece.emit] at isWritten
      rw [Piece.store, Piece.Loads]
      obtain ⟨first, isFirst, isWritten⟩ := Option.bind_eq_some_iff.mp isWritten
      obtain ⟨second, isSecond, isWritten⟩ := Option.bind_eq_some_iff.mp isWritten
      obtain ⟨third, isThird, isWritten⟩ := Option.bind_eq_some_iff.mp isWritten
      have later := disindex_grows isSecond
      have inner := emits_grows pieces isThird
      have last := dispop_grows isWritten
      obtain ⟨allocated, refused⟩ := denotes.disarray inRange holds described isFirst
      by_cases allocates : setting.allocates (arraySize setting desc left) = true
      · have isNew := @place_holds_new c.memory (c.base.plus offset) (arrayObject setting desc left)
          holds
        rw [place_cells] at isNew
        obtain ⟨selected, empty⟩ := (allocated allocates).disindex inRange (place_pointerAt holds)
          (place_new holds) room isSecond
        by_cases nonempty : 0 < left.toInt
        · obtain ⟨loaded, failed⟩ := emits_spec pieces (selected nonempty).denotes isLaid le_rfl
            le_rfl small rfl isNew isThird
          constructor
          · rintro ⟨-, -, loads⟩
            exact ((loaded loads).dispop rfl isWritten).denotes
          · intro fails
            have notLoaded : ¬ Loads setting pieces := fun loads =>
              fails ⟨allocates, nonempty, loads⟩
            exact (failed notLoaded).mono last
        · exact ⟨fun loads => absurd loads.2.1 nonempty,
            fun _ => (empty nonempty).mono (inner.trans last)⟩
      · exact ⟨fun loads => absurd loads.1 allocates,
          fun _ => (refused allocates).mono (later.trans (inner.trans last))⟩

theorem emits_spec {size : ℕ} : ∀ (pieces : List Piece) {first last : ℤ} {s s' : Output}
    {c : Config}, Denotes setting start s c → Laid setting pieces first last c.arrayStack.length →
    0 ≤ first → last ≤ size → size < 2 ^ 31 → c.base.offset = 0 → c.memory.Holds c.base size →
    emits pieces s = some s' →
    (Loads setting pieces → Denotes setting start s' { c with
        memory := stores setting pieces c.base c.memory }) ∧
      (¬ Loads setting pieces → Throws setting s'.written start)
  | [], _, _, s, s', c, denotes, _, _, _, _, _, _, isWritten => by
      rw [emits] at isWritten
      cases isWritten
      rw [stores, Loads]
      exact ⟨fun _ => denotes, fun fails => absurd trivial fails⟩
  | piece :: pieces, first, last, s, s', c, denotes, laid, isNat, inside, small, isStart, holds,
      isWritten => by
      obtain ⟨inRange, isHeld⟩ := laid.head isNat inside small isStart holds
      obtain ⟨-, isLaid, rest⟩ := laid
      have isNext : 0 ≤ piece.offset + piece.size := by
        have positive := inRange.1
        omega
      rw [emits] at isWritten
      rw [stores, Loads]
      obtain ⟨after, isFirst, isWritten⟩ := Option.bind_eq_some_iff.mp isWritten
      obtain ⟨loaded, failed⟩ := emit_spec piece denotes isLaid inRange isHeld isFirst
      by_cases loads : piece.Loads setting
      · obtain ⟨others, othersFail⟩ := emits_spec pieces (loaded loads) rest isNext inside small
          isStart (store_holds piece isLaid isHeld holds) isWritten
        exact ⟨fun all => others all.2, fun fails => othersFail fun all => fails ⟨loads, all⟩⟩
      · exact ⟨fun all => absurd all.1 loads,
          fun _ => (failed loads).mono (emits_grows pieces isWritten)⟩

end

end Pieces

end Disvm.DataWriter
