import Disvm.ModuleWriter

/-!
# Modules are read as they are written

Every section that the compiler writes is read back by its reader, which takes exactly the bytes
of the section, if the strings of its names can be made and its numbers are in their ranges.
-/

namespace Disvm.ModuleWriter

open ModuleReader Strings Utf8 DataSection

section Reading

variable {Value Next Entry : Type}

/-- A parse takes exactly the bytes and gives a value of a kind, if something is good; otherwise
it gives no such value. -/
structure Reads (parse : Parse Value) (bytes : List UInt8) (kind : Value → Prop) (good : Prop) :
    Prop where
  back : good → ∀ rest, ∃ value, parse (bytes ++ rest) = .ok value rest ∧ kind value
  only : ∀ rest value reader, parse (bytes ++ rest) = .ok value reader → kind value → good

/-- A parse that gives one value. -/
def Gives (parse : Parse Value) (bytes : List UInt8) (value : Value) : Prop :=
  ∀ rest, parse (bytes ++ rest) = .ok value rest

variable {parse : Parse Value} {next : Value → Parse Next} {bytes after : List UInt8}
  {value : Value} {kind : Value → Prop} {nextKind : Next → Prop} {good nextGood : Prop}

theorem Gives.bind {result : Next} (first : Gives parse bytes value)
    (second : Gives (next value) after result) :
    Gives (parse >>= next) (bytes ++ after) result := by
  intro rest
  show (parse (bytes ++ after ++ rest)).next next = _
  rw [List.append_assoc, first]
  exact second rest

theorem Gives.pure (value : Value) : Gives (Pure.pure value) [] value := fun _ => rfl

theorem Gives.map {make : Value → Next} (gives : Gives parse bytes value) :
    Gives (parse >>= fun value => Pure.pure (make value)) bytes (make value) := by
  have second : Gives (parse >>= fun value => Pure.pure (make value)) (bytes ++ [])
      (make value) := gives.bind (by exact Gives.pure (make value))
  rwa [List.append_nil] at second

theorem Gives.bind_eq (first : Gives parse bytes value) (rest : Stream) :
    (parse >>= next) (bytes ++ rest) = next value rest := by
  show (parse (bytes ++ rest)).next next = _
  rw [first]
  rfl

theorem Reads.bind_gives (first : Gives parse bytes value)
    (second : Reads (next value) after nextKind nextGood) :
    Reads (parse >>= next) (bytes ++ after) nextKind nextGood := by
  constructor
  · intro isGood rest
    rw [List.append_assoc, first.bind_eq]
    exact second.back isGood rest
  · intro rest result reader isOk
    rw [List.append_assoc, first.bind_eq] at isOk
    exact second.only rest result reader isOk

/-- The kind of the result tells that of the first value. -/
theorem Reads.bind (first : Reads parse bytes kind good)
    (second : ∀ value, kind value → Reads (next value) after nextKind nextGood)
    (recover : ∀ value reader result rest, next value reader = .ok result rest →
      nextKind result → kind value) :
    Reads (parse >>= next) (bytes ++ after) nextKind (good ∧ nextGood) := by
  have unfolded : ∀ rest, (parse >>= next) (bytes ++ after ++ rest) =
      (parse (bytes ++ (after ++ rest))).next next := by
    intro rest
    show (parse (bytes ++ after ++ rest)).next next = _
    rw [List.append_assoc]
  constructor
  · rintro ⟨isGood, nextIsGood⟩ rest
    obtain ⟨value, isOk, isKind⟩ := first.back isGood (after ++ rest)
    rw [unfolded, isOk]
    exact (second value isKind).back nextIsGood rest
  · intro rest result reader isOk isKind
    rw [unfolded] at isOk
    cases firstOk : parse (bytes ++ (after ++ rest)) with
    | ok value middle =>
        rw [firstOk] at isOk
        have isFirst := recover value middle result reader isOk isKind
        have isGood := first.only _ value middle firstOk isFirst
        obtain ⟨other, otherOk, -⟩ := first.back isGood (after ++ rest)
        rw [firstOk] at otherOk
        cases otherOk
        exact ⟨isGood, (second value isFirst).only rest result reader isOk isKind⟩
    | thrown =>
        rw [firstOk] at isOk
        cases isOk
    | undefined =>
        rw [firstOk] at isOk
        cases isOk

/-- A parse that gives one value or none. -/
theorem Reads.bind_or (gives : good → Gives parse bytes value)
    (refuses : ¬ good → ∀ rest, parse (bytes ++ rest) = .thrown)
    (second : good → Reads (next value) after nextKind nextGood) :
    Reads (parse >>= next) (bytes ++ after) nextKind (good ∧ nextGood) := by
  by_cases isGood : good
  · have reads := Reads.bind_gives (gives isGood) (second isGood)
    exact ⟨fun both => reads.back both.2, fun rest result reader isOk isKind =>
      ⟨isGood, reads.only rest result reader isOk isKind⟩⟩
  · refine ⟨fun both => absurd both.1 isGood, fun rest result reader isOk _ => ?_⟩
    have thrown : (parse >>= next) (bytes ++ after ++ rest) = .thrown := by
      show (parse (bytes ++ after ++ rest)).next next = _
      rw [List.append_assoc, refuses isGood]
      rfl
    rw [thrown] at isOk
    cases isOk

theorem Reads.pure (isKind : kind value) : Reads (Pure.pure value) [] kind True :=
  ⟨fun _ _ => ⟨value, rfl, isKind⟩, fun _ _ _ _ _ => trivial⟩

theorem Gives.reads (gives : Gives parse bytes value) (isKind : kind value) :
    Reads parse bytes kind True :=
  ⟨fun _ rest => ⟨value, gives rest, isKind⟩, fun _ _ _ _ _ => trivial⟩

theorem Reads.congr (reads : Reads parse bytes kind good) (same : good ↔ nextGood) :
    Reads parse bytes kind nextGood :=
  ⟨fun isGood => reads.back (same.mpr isGood), fun rest value reader isOk isKind =>
    same.mp (reads.only rest value reader isOk isKind)⟩

theorem ok_bind_iff {reader rest : Stream} {result : Next} :
    (parse >>= next) reader = .ok result rest ↔
      ∃ value middle, parse reader = .ok value middle ∧ next value middle = .ok result rest := by
  show (parse reader).next next = _ ↔ _
  cases parse reader with
  | ok value middle =>
      constructor
      · exact fun isOk => ⟨value, middle, rfl, isOk⟩
      · rintro ⟨_, _, ⟨⟩, isOk⟩
        exact isOk
  | thrown => simp [Outcome.next]
  | undefined => simp [Outcome.next]

theorem ok_map_iff {make : Value → Next} {reader rest : Stream} {result : Next} :
    (parse >>= fun value => Pure.pure (make value)) reader = .ok result rest ↔
      ∃ value, parse reader = .ok value rest ∧ make value = result := by
  rw [ok_bind_iff]
  constructor
  · rintro ⟨value, middle, isOk, made⟩
    cases made
    exact ⟨value, isOk, rfl⟩
  · rintro ⟨value, isOk, rfl⟩
    exact ⟨value, rest, isOk, rfl⟩

/-- The value is put into a record. -/
theorem Reads.map {make : Value → Next} (reads : Reads parse bytes kind good)
    (same : ∀ value, nextKind (make value) ↔ kind value) :
    Reads (parse >>= fun value => Pure.pure (make value)) bytes nextKind good := by
  constructor
  · intro isGood rest
    obtain ⟨value, isOk, isKind⟩ := reads.back isGood rest
    exact ⟨make value, ok_map_iff.mpr ⟨value, isOk, rfl⟩, (same value).mpr isKind⟩
  · intro rest result reader isOk isKind
    obtain ⟨value, valueOk, rfl⟩ := ok_map_iff.mp isOk
    exact reads.only rest value reader valueOk ((same value).mp isKind)

variable {write : Entry → Option (List UInt8)} {kindOf : Entry → Value → Prop}
  {goodOf : Entry → Prop}

/-- A table is read entry by entry. -/
theorem reads_times {entries : List Entry} (each : ∀ entry ∈ entries, ∀ bytes,
      write entry = some bytes → Reads parse bytes (kindOf entry) (goodOf entry))
    (written : concat write entries = some bytes) :
    Reads (Parse.times parse entries.length) bytes (List.Forall₂ kindOf entries)
      (∀ entry ∈ entries, goodOf entry) := by
  induction entries generalizing bytes with
  | nil =>
      cases written
      exact (Reads.pure List.Forall₂.nil).congr (by simp)
  | cons entry entries ih =>
      obtain ⟨first, isFirst, written⟩ := Option.bind_eq_some_iff.mp written
      obtain ⟨rest, isRest, isBytes⟩ := Option.bind_eq_some_iff.mp written
      cases isBytes
      obtain ⟨readsEntry, readsRest⟩ := List.forall_mem_cons.mp each
      have tail : ∀ value, kindOf entry value →
          Reads (Parse.times parse entries.length >>= fun values => Pure.pure (value :: values))
            rest (List.Forall₂ kindOf (entry :: entries)) (∀ entry ∈ entries, goodOf entry) :=
        fun value isKind => (ih readsRest isRest).map fun values => by
          rw [List.forall₂_cons, and_iff_right isKind]
      refine ((readsEntry first isFirst).bind tail ?_).congr List.forall_mem_cons.symm
      intro value reader values rest isOk all
      obtain ⟨others, -, rfl⟩ := ok_map_iff.mp isOk
      exact (List.forall₂_cons.mp all).1

/-- A table after its number of entries. -/
theorem reads_counted {entries : List Entry} {count : Word}
    (isCount : count.toInt = entries.length) (each : ∀ entry ∈ entries, ∀ bytes,
      write entry = some bytes → Reads parse bytes (kindOf entry) (goodOf entry))
    (written : concat write entries = some bytes) :
    Reads (Parse.counted count parse) bytes (List.Forall₂ kindOf entries)
      (∀ entry ∈ entries, goodOf entry) := by
  unfold Parse.counted
  rw [isCount, if_neg (by omega), Int.toNat_natCast]
  exact reads_times each written

/-- Every result of a parse is of a kind. -/
def Always (parse : Parse Value) (kind : Value → Prop) : Prop :=
  ∀ reader value rest, parse reader = .ok value rest → kind value

theorem Always.pure (isKind : kind value) : Always (Pure.pure value) kind := by
  intro reader result rest isOk
  cases isOk
  exact isKind

theorem Always.bind (always : ∀ value, Always (next value) nextKind) :
    Always (parse >>= next) nextKind := by
  intro reader result rest isOk
  obtain ⟨value, middle, -, isOk⟩ := ok_bind_iff.mp isOk
  exact always value middle result rest isOk

end Reading

section Parts

variable {bytes : List UInt8}

theorem gives_operand {val : Word} (written : discon val = some bytes) :
    Gives readOperand bytes val := by
  intro rest
  unfold readOperand Parse.ofRead
  rw [readNextOperand_discon written]

theorem gives_operandUnchecked {val : Word} (written : discon val = some bytes) :
    Gives readOperandUnchecked bytes val := by
  intro rest
  unfold readOperandUnchecked
  rw [readNextOperand_discon written]

theorem gives_word (val : Word) : Gives readWordOrThrow (disword val) val := by
  intro rest
  unfold readWordOrThrow Parse.ofRead
  rw [readNextWord_disword]

theorem gives_bytes (bytes : List UInt8) : Gives (readBytes bytes.length) bytes bytes := by
  intro rest
  unfold readBytes Parse.ofRead
  rw [getNextBytes_append]

theorem discount_eq {count : ℕ} (written : discount count = some bytes) :
    count < 2 ^ 31 ∧ discon (BitVec.ofNat 32 count) = some bytes := by
  unfold discount at written
  split_ifs at written with small
  exact ⟨small, written⟩

theorem toInt_ofNat {count : ℕ} (small : count < 2 ^ 31) :
    (BitVec.ofNat 32 count).toInt = count := by
  have isNat : (BitVec.ofNat 32 count).toNat = count := by
    rw [BitVec.toNat_ofNat, Nat.mod_eq_of_lt (by omega)]
  rw [BitVec.toInt_eq_toNat_of_lt (by omega), isNat]

/-- A string holds the text of some bytes, in its storage. -/
structure Named (bytes : List UInt8) (name : VmString) : Prop where
  scalars : ∀ rune ∈ name.runes, IsScalar rune
  text : encodeText name.runes = bytes
  stored : name.overrun = false

/-- Bytes that the constructor of strings makes a string of: UTF-8 for which there is room. -/
def Storable (bytes : List UInt8) : Prop :=
  ∃ runes, (∀ rune ∈ runes, IsScalar rune) ∧ encodeText runes = bytes ∧ HasRoom runes

theorem nul_mem_text {runes : List ℕ} (scalars : ∀ rune ∈ runes, IsScalar rune) :
    0 ∈ encodeText runes ↔ 0 ∈ runes := by
  induction runes with
  | nil => simp [encodeText]
  | cons rune runes ih =>
      obtain ⟨isScalar, others⟩ := List.forall_mem_cons.mp scalars
      rw [encodeText_cons, List.mem_append, nul_mem_encode isScalar.1, ih others, List.mem_cons,
        eq_comm]

theorem named_iff (noNul : 0 ∉ bytes) (short : bytes.length < 2 ^ 31) :
    (∃ name, VmString.ofUtf8 bytes = .ok name ∧ Named bytes name) ↔ Storable bytes := by
  have construct : ∀ runes, (∀ rune ∈ runes, IsScalar rune) → encodeText runes = bytes →
      ∃ name, VmString.ofUtf8 bytes = .ok name ∧ name.runes = runes ∧
        (name.overrun = false ↔ HasRoom runes) := by
    rintro runes scalars rfl
    have noNulRunes : ∀ rune ∈ runes, rune ≠ 0 := by
      rintro rune member rfl
      exact noNul ((nul_mem_text scalars).mpr member)
    exact ofUtf8_copied scalars (copiedText_encodeText scalars noNulRunes) short
  constructor
  · rintro ⟨name, made, named⟩
    obtain ⟨other, otherMade, -, room⟩ := construct name.runes named.scalars named.text
    cases Except.ok.inj (made.symm.trans otherMade)
    exact ⟨name.runes, named.scalars, named.text, room.mp named.stored⟩
  · rintro ⟨runes, scalars, isText, hasRoom⟩
    obtain ⟨name, made, rfl, room⟩ := construct runes scalars isText
    exact ⟨name, made, scalars, isText, room.mpr hasRoom⟩

theorem getBytesUntil_nul (noNul : 0 ∉ bytes) (rest : Stream) :
    getBytesUntil (bytes ++ 0 :: rest) = some (bytes, rest) := by
  unfold getBytesUntil getNext
  rw [BufferedReader.flatExecute, BufferedReader.flatUntil_append rest noNul]

/-- What is read is the string of the bytes, or an exception. -/
theorem readName_of_ofUtf8 (noNul : 0 ∉ bytes) (rest : Stream) :
    (∀ name, VmString.ofUtf8 bytes = .ok name →
        readName (bytes ++ [0] ++ rest) = .ok name rest) ∧
      ∀ exception, VmString.ofUtf8 bytes = .error exception →
        readName (bytes ++ [0] ++ rest) = .thrown := by
  have isUntil : Parse.ofRead getBytesUntil (bytes ++ 0 :: rest) = .ok bytes rest := by
    rw [Parse.ofRead, getBytesUntil_nul noNul]
  rw [List.append_assoc, List.singleton_append]
  constructor
  · intro name made
    show (Parse.ofRead getBytesUntil (bytes ++ 0 :: rest)).next _ = _
    rw [isUntil, Outcome.next, made]
    rfl
  · intro exception refused
    show (Parse.ofRead getBytesUntil (bytes ++ 0 :: rest)).next _ = _
    rw [isUntil, Outcome.next, refused]
    rfl

theorem reads_name (noNul : 0 ∉ bytes) (short : bytes.length < 2 ^ 31) :
    Reads readName (bytes ++ [0]) (Named bytes) (Storable bytes) := by
  constructor
  · intro storable rest
    obtain ⟨name, made, named⟩ := (named_iff noNul short).mpr storable
    exact ⟨name, (readName_of_ofUtf8 noNul rest).1 name made, named⟩
  · intro rest name reader isOk named
    cases made : VmString.ofUtf8 bytes with
    | error exception =>
        rw [(readName_of_ofUtf8 noNul rest).2 exception made] at isOk
        cases isOk
    | ok other =>
        rw [(readName_of_ofUtf8 noNul rest).1 other made] at isOk
        cases isOk
        exact (named_iff noNul short).mp ⟨name, made, named⟩

end Parts

def Mode.read : Mode → AddressMode
  | .imm | .pc | .desc | .off | .noff | .ldt => .immediate
  | .mp => .offsetIndirectMp
  | .mpind => .offsetDoubleIndirectMp
  | .fp => .offsetIndirectFp
  | .fpind => .offsetDoubleIndirectFp
  | .none => .none

def Mode.readMiddle : Mode → AddressModeMiddle
  | .imm | .pc | .desc | .off | .noff | .ldt => .smallImmediate
  | .mp => .smallOffsetIndirectMp
  | .fp => .smallOffsetIndirectFp
  | .mpind | .fpind | .none => .none

/-- The operand as the reader keeps it. -/
def Addr.read (a : Addr) : InstData :=
  match a.mode with
  | .none => ⟨.none, 0, 0⟩
  | .mpind | .fpind => ⟨a.mode.read, a.reg, a.val⟩
  | _ => ⟨a.mode.read, a.val, 0⟩

def MiddleAddr.read (m : MiddleAddr) : MiddleData :=
  ⟨m.addr.mode.readMiddle, m.addr.val⟩

def Inst.addrCode (inst : Inst) : UInt8 :=
  dismode inst.s.mode <<< 3 ||| dismode inst.d.mode ||| disregmode inst.m.addr.mode

def Inst.read (inst : Inst) : Instruction :=
  ⟨inst.op, inst.addrCode, inst.s.read, inst.m.read, inst.d.read⟩

section Instructions

variable {bytes : List UInt8}

/-- The three codes of a byte do not overlap. -/
theorem convertToAddressMode_codes : ∀ s < 8, ∀ d < 8, ∀ m < 4,
    convertToAddressMode (UInt8.ofNat s <<< 3 ||| UInt8.ofNat d ||| UInt8.ofNat m <<< 6) =
      (.ofCode m, .ofCode s, .ofCode d) := by
  decide +kernel

theorem dismode_code (mode : Mode) :
    ∃ code < 8, dismode mode = UInt8.ofNat code ∧ AddressMode.ofCode code = mode.read := by
  cases mode <;> decide

theorem disregmode_code (mode : Mode) :
    ∃ code < 4, disregmode mode = UInt8.ofNat code <<< 6 ∧
      AddressModeMiddle.ofCode code = mode.readMiddle := by
  cases mode <;> decide

theorem convertToAddressMode_modes (s d m : Mode) :
    convertToAddressMode (dismode s <<< 3 ||| dismode d ||| disregmode m) =
      (m.readMiddle, s.read, d.read) := by
  obtain ⟨sCode, sSmall, isS, sRead⟩ := dismode_code s
  obtain ⟨dCode, dSmall, isD, dRead⟩ := dismode_code d
  obtain ⟨mCode, mSmall, isM, mRead⟩ := disregmode_code m
  rw [isS, isD, isM, convertToAddressMode_codes sCode sSmall dCode dSmall mCode mSmall, sRead,
    dRead, mRead]

/-- Two constants of an indirect operand. -/
theorem gives_indirect {mode : AddressMode} {reg val : Word} (written : (do
      let first ← discon reg
      let second ← discon val
      return first ++ second) = some bytes) :
    Gives (do
      let register1 ← readOperand
      let register2 ← readOperand
      return ⟨mode, register1, register2⟩) bytes (⟨mode, reg, val⟩ : InstData) := by
  obtain ⟨first, isFirst, written⟩ := Option.bind_eq_some_iff.mp written
  obtain ⟨second, isSecond, isBytes⟩ := Option.bind_eq_some_iff.mp written
  cases isBytes
  exact (gives_operand isFirst).bind (gives_operand isSecond).map

theorem gives_direct {mode : AddressMode} {val : Word} (written : discon val = some bytes) :
    Gives (do
      let register1 ← readOperand
      return ⟨mode, register1, 0⟩) bytes (⟨mode, val, 0⟩ : InstData) :=
  (gives_operand written).map

theorem gives_instData {a : Addr} (written : disaddr a = some bytes) :
    Gives (readInstData a.mode.read) bytes a.read := by
  obtain ⟨mode, reg, offset, ifaceOffset⟩ := a
  cases mode with
  | none =>
      cases written
      exact Gives.pure _
  | mpind => exact gives_indirect written
  | fpind => exact gives_indirect written
  | _ => exact gives_direct written

theorem gives_middleData {m : MiddleAddr} (written : disaddr m.addr = some bytes) :
    Gives (readMiddleData m.addr.mode.readMiddle) bytes m.read := by
  obtain ⟨⟨mode, reg, offset, ifaceOffset⟩, notMp, notFp⟩ := m
  cases mode with
  | none =>
      cases written
      exact Gives.pure _
  | mpind => exact absurd rfl notMp
  | fpind => exact absurd rfl notFp
  | _ => exact (gives_operand written).map

theorem gives_inst {inst : Inst} (written : disinst1 inst = some bytes) :
    Gives readInstruction bytes inst.read := by
  obtain ⟨m, isM, written⟩ := Option.bind_eq_some_iff.mp written
  obtain ⟨s, isS, written⟩ := Option.bind_eq_some_iff.mp written
  obtain ⟨d, isD, isBytes⟩ := Option.bind_eq_some_iff.mp written
  cases isBytes
  have codes : Gives (readBytes 2) [inst.op, inst.addrCode] [inst.op, inst.addrCode] :=
    gives_bytes [inst.op, inst.addrCode]
  have shape : inst.op :: inst.addrCode :: (m ++ s ++ d) =
      [inst.op, inst.addrCode] ++ (m ++ (s ++ d)) := by simp
  show Gives readInstruction (inst.op :: inst.addrCode :: (m ++ s ++ d)) inst.read
  rw [shape]
  refine codes.bind ?_
  simp only [List.getD_cons_zero, List.getD_cons_succ, Inst.addrCode, convertToAddressMode_modes]
  exact (gives_middleData isM).bind ((gives_instData isS).bind (gives_instData isD).map)

end Instructions

/-- The header as the reader keeps it. -/
def Source.header (m : Source) : ModuleHeader where
  magicNumber := magic
  signature := []
  runtimeFlag := m.hints
  stackExtent := m.maxstack
  codeSize := BitVec.ofNat 32 m.insts.written.length
  dataSize := m.offset
  typeSize := BitVec.ofNat 32 m.descs.length
  exportSize := BitVec.ofNat 32 m.links.length
  entryPc := (m.entry.map Prod.fst).getD (-1)
  entryType := (m.entry.map Prod.snd).getD (-1)

section Header

variable {bytes : List UInt8} {m : Source}

theorem gives_count {count : ℕ} (written : discount count = some bytes) :
    Gives readOperand bytes (BitVec.ofNat 32 count) :=
  gives_operand (discount_eq written).2

theorem gives_signature : Gives (readSignature magic) [] [] := fun _ => rfl

/-- The header is read back; its numbers of entries are `int`s. -/
theorem header_spec (written : disheader m = some bytes) :
    Gives readModuleHeader bytes m.header ∧ m.insts.written.length < 2 ^ 31 ∧
      m.descs.length < 2 ^ 31 ∧ m.links.length < 2 ^ 31 := by
  unfold disheader at written
  obtain ⟨magic, isMagic, written⟩ := Option.bind_eq_some_iff.mp written
  obtain ⟨hints, isHints, written⟩ := Option.bind_eq_some_iff.mp written
  obtain ⟨maxstack, isStack, written⟩ := Option.bind_eq_some_iff.mp written
  obtain ⟨ninst, isInst, written⟩ := Option.bind_eq_some_iff.mp written
  obtain ⟨offset, isOffset, written⟩ := Option.bind_eq_some_iff.mp written
  obtain ⟨ndesc, isDesc, written⟩ := Option.bind_eq_some_iff.mp written
  obtain ⟨nlink, isLink, written⟩ := Option.bind_eq_some_iff.mp written
  obtain ⟨entry, isEntry, isBytes⟩ := Option.bind_eq_some_iff.mp written
  obtain ⟨pc, isPc, isEntry⟩ := Option.bind_eq_some_iff.mp isEntry
  obtain ⟨descId, isDescId, isEntry⟩ := Option.bind_eq_some_iff.mp isEntry
  cases isEntry
  cases isBytes
  have shape : magic ++ hints ++ maxstack ++ ninst ++ offset ++ ndesc ++ nlink ++ (pc ++ descId) =
      magic ++ ([] ++ (hints ++ (maxstack ++ (ninst ++ (offset ++ (ndesc ++ (nlink ++
        (pc ++ descId)))))))) := by
    simp only [List.append_assoc, List.nil_append]
  refine ⟨?_, (discount_eq isInst).1, (discount_eq isDesc).1, (discount_eq isLink).1⟩
  rw [shape]
  refine (gives_operand isMagic).bind (gives_signature.bind ?_)
  refine (gives_operand isHints).bind ((gives_operand isStack).bind ?_)
  refine (gives_count isInst).bind ((gives_operand isOffset).bind ?_)
  refine (gives_count isDesc).bind ((gives_count isLink).bind ?_)
  exact (gives_operand isPc).bind (gives_operand isDescId).map

end Header

section Tables

variable {bytes : List UInt8} {m : Source}

theorem forall₂_eq_iff {Entry Value : Type} {make : Entry → Value} {entries : List Entry}
    {values : List Value} :
    List.Forall₂ (fun entry value => value = make entry) entries values ↔
      values = entries.map make := by
  induction entries generalizing values with
  | nil => simp
  | cons entry entries ih =>
      cases values with
      | nil => simp
      | cons value values => simp [ih]

/-- The entry is an instruction, unless there is none. -/
def Source.EntryInside (m : Source) : Prop :=
  m.header.entryPc ≠ noEntryPc → m.header.entryPc.toNat < m.insts.written.length

/-- The instructions are read, or refused for the entry. -/
theorem code_spec (small : m.insts.written.length < 2 ^ 31)
    (written : disinst m.insts = some bytes) :
    (m.EntryInside → Gives (readCodeSection m.header) bytes
        (m.insts.written.map Inst.read)) ∧
      (¬ m.EntryInside → ∀ rest, readCodeSection m.header (bytes ++ rest) = .thrown) := by
  have each : ∀ inst ∈ m.insts.written, ∀ bytes, disinst1 inst = some bytes →
      Reads readInstruction bytes (fun value => value = inst.read) True :=
    fun inst _ bytes written => (gives_inst written).reads rfl
  have table := reads_counted (toInt_ofNat small) each written
  have gives : Gives (Parse.counted m.header.codeSize readInstruction) bytes
      (m.insts.written.map Inst.read) := by
    intro rest
    obtain ⟨values, isOk, areRead⟩ := table.back (fun _ _ => trivial) rest
    rw [← forall₂_eq_iff.mp areRead]
    exact isOk
  have refuses : ¬ m.EntryInside ↔ m.header.entryPc ≠ noEntryPc ∧
      (m.insts.written.map Inst.read).length ≤ m.header.entryPc.toNat := by
    rw [Source.EntryInside, List.length_map, Classical.not_imp, not_lt]
  constructor
  · intro inside
    have checked : Gives (readCodeSection m.header) (bytes ++ [])
        (m.insts.written.map Inst.read) := by
      refine gives.bind ?_
      rw [if_neg (fun outside => refuses.mpr outside inside)]
      exact Gives.pure _
    rwa [List.append_nil] at checked
  · intro outside rest
    unfold readCodeSection
    rw [gives.bind_eq, if_pos (refuses.mp outside)]
    rfl

/-- A descriptor as the reader keeps it. -/
def Desc.read (desc : Desc) : TypeDescriptor :=
  ⟨desc.size, desc.map⟩

/-- The longest map that is read. -/
def maxMap : ℕ := 128 * 1024

/-- A descriptor is read, or refused for its map. -/
theorem desc_spec {desc : ℕ × Desc} (written : disdesc1 desc = some bytes) :
    (desc.2.map.length ≤ maxMap →
        Gives readTypeDescriptor bytes (BitVec.ofNat 32 desc.1, desc.2.read)) ∧
      (¬ desc.2.map.length ≤ maxMap →
        ∀ rest, readTypeDescriptor (bytes ++ rest) = .thrown) := by
  obtain ⟨id, isId, written⟩ := Option.bind_eq_some_iff.mp written
  obtain ⟨size, isSize, written⟩ := Option.bind_eq_some_iff.mp written
  obtain ⟨nmap, isMap, isBytes⟩ := Option.bind_eq_some_iff.mp written
  cases isBytes
  obtain ⟨small, isMap⟩ := discount_eq isMap
  have shape : id ++ size ++ nmap ++ desc.2.map = id ++ (size ++ (nmap ++ desc.2.map)) := by
    simp only [List.append_assoc]
  rw [shape]
  constructor
  · intro fits
    refine (gives_count isId).bind ((gives_operand isSize).bind ((gives_operand isMap).bind ?_))
    unfold maxMap at fits
    unfold maxTypePointerCount
    rw [toInt_ofNat small, if_neg (by omega), if_neg (by omega), Int.toNat_natCast]
    exact (gives_bytes desc.2.map).map
  · intro long rest
    unfold maxMap at long
    simp only [List.append_assoc]
    unfold readTypeDescriptor
    rw [(gives_count isId).bind_eq, (gives_operand isSize).bind_eq, (gives_operand isMap).bind_eq]
    unfold maxTypePointerCount
    rw [toInt_ofNat small, if_pos (by omega)]
    rfl

/-- Descriptors are read into the entries after those that have been read. -/
theorem reads_typeLoop {descs : List Desc} {before : TypeSection}
    (small : before.length + descs.length < 2 ^ 31)
    (written : concat disdesc1 ((descs.zipIdx before.length).map Prod.swap) = some bytes) :
    Reads (typeLoop descs.length (before ++ List.replicate descs.length none)) bytes
      (fun value => value = before ++ descs.map fun desc => some desc.read)
      (∀ desc ∈ descs, desc.map.length ≤ maxMap) := by
  induction descs generalizing before bytes with
  | nil =>
      cases written
      exact (Reads.pure (by rfl)).congr (by simp)
  | cons desc descs ih =>
      rw [List.zipIdx_cons, List.map_cons] at written
      obtain ⟨first, isFirst, written⟩ := Option.bind_eq_some_iff.mp written
      obtain ⟨rest, isRest, isBytes⟩ := Option.bind_eq_some_iff.mp written
      cases isBytes
      rw [List.length_cons] at small
      have number : (BitVec.ofNat 32 before.length).toInt = before.length :=
        toInt_ofNat (by omega)
      have length : (before ++ [some desc.read]).length = before.length + 1 := by simp
      have isEntry : (before ++ List.replicate (desc :: descs).length none).set before.length
          (some desc.read) = before ++ [some desc.read] ++ List.replicate descs.length none := by
        rw [List.length_cons, List.replicate_succ, List.set_append_right _ _ le_rfl,
          Nat.sub_self, List.set_cons_zero, List.append_assoc, List.singleton_append]
      have later : Reads (typeLoop descs.length
          (before ++ [some desc.read] ++ List.replicate descs.length none)) rest
          (fun value => value = before ++ (desc :: descs).map fun desc => some desc.read)
          (∀ desc ∈ descs, desc.map.length ≤ maxMap) := by
        have tail : before ++ (desc :: descs).map (fun desc => some desc.read) =
            before ++ [some desc.read] ++ descs.map fun desc => some desc.read := by simp
        rw [tail]
        refine ih ?_ ?_
        · rw [length]
          omega
        · rw [length]
          exact isRest
      have isDesc : disdesc1 (before.length, desc) = some first := isFirst
      have isSpec := @desc_spec _ _ isDesc
      have both : (desc.map.length ≤ maxMap ∧ ∀ other ∈ descs, other.map.length ≤ maxMap) ↔
          ∀ other ∈ desc :: descs, other.map.length ≤ maxMap := by rw [List.forall_mem_cons]
      refine Reads.congr (Reads.bind_or isSpec.1 isSpec.2 fun _ => ?_) both
      show Reads (if _ then _ else _) _ _ _
      have inTable : ¬ ((BitVec.ofNat 32 before.length).toInt < 0 ∨
          (before ++ List.replicate (desc :: descs).length none).length ≤
            (BitVec.ofNat 32 before.length).toInt.toNat) := by
        rw [number, List.length_append, List.length_replicate, List.length_cons]
        omega
      rw [if_neg inTable, number, Int.toNat_natCast, isEntry]
      exact later

theorem reads_types (small : m.descs.length < 2 ^ 31) (written : disdesc m.descs = some bytes) :
    Reads (readTypeSection m.header) bytes
      (fun value => value = m.descs.map fun desc => some desc.read)
      (∀ desc ∈ m.descs, desc.map.length ≤ maxMap) := by
  have isSize : m.header.typeSize.toInt = m.descs.length := toInt_ofNat small
  unfold readTypeSection
  rw [isSize, if_neg (by omega), Int.toNat_natCast]
  have reads := @reads_typeLoop bytes m.descs [] (by simpa using small) written
  simpa only [List.nil_append] using reads

end Tables

section Links

variable {bytes : List UInt8} {m : Source}

theorem FunctionName.bytes_eq (name : FunctionName) : name.bytes = encodeText name.link.runes := by
  unfold FunctionName.bytes LinkName.runes
  cases name.link.adt with
  | none => rfl
  | some adt =>
      have dot : encode '.'.toNat = [46] := rfl
      simp only [encodeText_append, encodeText_cons, dot, List.singleton_append]

theorem FunctionName.noNul_bytes (name : FunctionName) : 0 ∉ name.bytes := by
  rw [name.bytes_eq, nul_mem_text name.scalars]
  exact fun member => name.noNul 0 member rfl

theorem FunctionName.short_bytes (name : FunctionName) : name.bytes.length < 2 ^ 31 := by
  rw [name.bytes_eq]
  exact name.short

theorem SymbolName.noNul_bytes (name : SymbolName) : 0 ∉ name.bytes := by
  rw [SymbolName.bytes, nul_mem_text name.scalars]
  exact fun member => name.noNul 0 member rfl

/-- The name of a function is read to its NUL. -/
theorem FunctionName.reads (name : FunctionName) :
    Reads readName (name.bytes ++ [0]) (Named name.bytes) (Storable name.bytes) :=
  reads_name name.noNul_bytes name.short_bytes

/-- The numbers and the name of an entry of the link section. -/
def Link.parts : Link → Word × Word × Word × List UInt8
  | .global sign => (-1, -1, sign, moduleDataName)
  | .fn pc descId sign name => (pc, descId, sign, name.bytes)

/-- An entry as the reader keeps it. -/
structure ExportOf (link : Link) (item : ExportFunction) : Prop where
  pc : item.pc = link.parts.1
  frameType : item.frameType = link.parts.2.1
  sig : item.sig = link.parts.2.2.1
  name : Named link.parts.2.2.2 item.name

theorem reads_export {pc descId sign : Word} {name : List UInt8} {pcBytes descBytes : List UInt8}
    (isPc : discon pc = some pcBytes) (isDesc : discon descId = some descBytes)
    (noNul : 0 ∉ name) (short : name.length < 2 ^ 31) {kind : ExportFunction → Prop}
    (isKind : ∀ string, kind ⟨pc, descId, sign, string⟩ ↔ Named name string) :
    Reads readExport (pcBytes ++ descBytes ++ disword sign ++ name ++ [0]) kind
      (Storable name) := by
  have shape : pcBytes ++ descBytes ++ disword sign ++ name ++ [0] =
      pcBytes ++ (descBytes ++ (disword sign ++ (name ++ [0]))) := by
    simp only [List.append_assoc]
  rw [shape]
  refine Reads.bind_gives (gives_operand isPc) (Reads.bind_gives (gives_operand isDesc) ?_)
  exact Reads.bind_gives (gives_word sign) ((reads_name noNul short).map isKind)

theorem reads_link {link : Link} (written : dislink link = some bytes) :
    Reads readExport bytes (ExportOf link) (Storable link.parts.2.2.2) := by
  have isKind : ∀ string,
      ExportOf link ⟨link.parts.1, link.parts.2.1, link.parts.2.2.1, string⟩ ↔
        Named link.parts.2.2.2 string :=
    fun string => ⟨ExportOf.name, fun named => ⟨rfl, rfl, rfl, named⟩⟩
  cases link with
  | global sign =>
      unfold dislink at written
      obtain ⟨pc, isPc, written⟩ := Option.bind_eq_some_iff.mp written
      obtain ⟨descId, isDesc, isBytes⟩ := Option.bind_eq_some_iff.mp written
      cases isBytes
      exact reads_export isPc isDesc (show 0 ∉ moduleDataName by decide)
        (show moduleDataName.length < 2 ^ 31 by decide) isKind
  | fn pc descId sign name =>
      obtain ⟨pcBytes, isPc, written⟩ := Option.bind_eq_some_iff.mp written
      obtain ⟨descBytes, isDesc, isBytes⟩ := Option.bind_eq_some_iff.mp written
      cases isBytes
      exact reads_export isPc isDesc name.noNul_bytes name.short_bytes isKind

theorem reads_links (small : m.links.length < 2 ^ 31)
    (written : concat dislink m.links = some bytes) :
    Reads (readLinkSection m.header) bytes (List.Forall₂ ExportOf m.links)
      (∀ link ∈ m.links, Storable link.parts.2.2.2) :=
  reads_counted (toInt_ofNat small) (fun _ _ _ => reads_link) written

/-- A function as the reader keeps it. -/
structure ImportOf (function : Import) (func : ImportFunction) : Prop where
  sig : func.sig = function.sign
  name : Named function.name.bytes func.name

theorem reads_import {function : Import} (written : disimport function = some bytes) :
    Reads readImport bytes (ImportOf function) (Storable function.name.bytes) := by
  cases written
  rw [List.append_assoc]
  refine Reads.bind_gives (gives_word function.sign) (function.name.reads.map fun string => ?_)
  exact ⟨ImportOf.name, fun named => ⟨rfl, named⟩⟩

theorem reads_iface {functions : List Import} (written : disiface functions = some bytes) :
    Reads readImportModule bytes (List.Forall₂ ImportOf functions)
      (∀ function ∈ functions, Storable function.name.bytes) := by
  obtain ⟨count, isCount, written⟩ := Option.bind_eq_some_iff.mp written
  obtain ⟨entries, areEntries, isBytes⟩ := Option.bind_eq_some_iff.mp written
  cases isBytes
  refine Reads.bind_gives (gives_count isCount) ?_
  exact reads_counted (toInt_ofNat (discount_eq isCount).1) (fun _ _ _ => reads_import) areEntries

theorem gives_finalByte : Gives readFinalByte [0] () := fun _ => rfl

/-- A table that ends with a byte. -/
theorem Reads.final {Value : Type} {parse : Parse Value} {kind : Value → Prop} {good : Prop}
    (reads : Reads parse bytes kind good) :
    Reads (do
      let value ← parse
      readFinalByte
      return value) (bytes ++ [0]) kind good := by
  refine (reads.bind (fun value isKind => ?_) ?_).congr (and_iff_left trivial)
  · exact Gives.reads gives_finalByte.map isKind
  · intro value reader result rest isOk isKind
    obtain ⟨_, -, rfl⟩ := ok_map_iff.mp isOk
    exact isKind

theorem last_zero {last : List UInt8} (written : discon 0 = some last) : last = [0] := by
  cases written
  rfl

theorem reads_ldt {modules : List (List Import)} (written : disldt modules = some bytes) :
    Reads readImportSection bytes (List.Forall₂ (List.Forall₂ ImportOf) modules)
      (∀ functions ∈ modules, ∀ function ∈ functions, Storable function.name.bytes) := by
  obtain ⟨count, isCount, written⟩ := Option.bind_eq_some_iff.mp written
  obtain ⟨entries, areEntries, written⟩ := Option.bind_eq_some_iff.mp written
  obtain ⟨last, isLast, isBytes⟩ := Option.bind_eq_some_iff.mp written
  cases isBytes
  rw [last_zero isLast, List.append_assoc]
  refine Reads.bind_gives (gives_count isCount) (Reads.final ?_)
  exact reads_counted (toInt_ofNat (discount_eq isCount).1) (fun _ _ _ => reads_iface) areEntries

end Links

/-- An entry of an exception table as the reader keeps it; the last one has no name. -/
structure ExceptionOf (lab : ExceptLabel) (except : ExceptionEntry) : Prop where
  pc : except.pc = lab.pc
  name : ∃ string, except.name = some string ∧ Named lab.name.bytes string

/-- A handler as the reader keeps it. -/
structure HandlerOf (descs : List Desc) (except : ExceptDecl) (handler : HandlerEntry) : Prop where
  exceptionOffset : handler.exceptionOffset = except.offset
  beginPc : handler.beginPc = except.pc1
  endPc : handler.endPc = except.pc2
  typeDesc : handler.typeDesc =
    except.desc.map fun id => (BitVec.ofNat 32 id, (descs[id]?).map Desc.read)
  exceptions : List.Forall₂ ExceptionOf except.labs handler.exceptionTable.dropLast
  wildcard : handler.exceptionTable.getLast? = some ⟨except.iwild.getD (-1), none⟩
  exceptionTypeCount : handler.exceptionTypeCount.toInt = except.ne

/-- The two numbers of labels fit into the halves of a word. -/
def ExceptDecl.InRange (except : ExceptDecl) : Prop :=
  except.labs.length < 2 ^ 16 ∧ except.ne < 2 ^ 15

section Handlers

variable {bytes : List UInt8} {descs : List Desc}

theorem length_times {Value : Type} {parse : Parse Value} {count : ℕ} {reader rest : Stream}
    {values : List Value} (isOk : Parse.times parse count reader = .ok values rest) :
    values.length = count := by
  induction count generalizing reader values with
  | zero =>
      cases isOk
      rfl
  | succ count ih =>
      obtain ⟨value, middle, -, isOk⟩ := ok_bind_iff.mp isOk
      obtain ⟨others, othersOk, rfl⟩ := ok_map_iff.mp isOk
      rw [List.length_cons, ih othersOk]

theorem reads_label {lab : ExceptLabel} (written : dislabel lab = some bytes) :
    Reads readException bytes (ExceptionOf lab) (Storable lab.name.bytes) := by
  obtain ⟨pc, isPc, isBytes⟩ := Option.bind_eq_some_iff.mp written
  cases isBytes
  have shape : lab.name.bytes ++ 0 :: pc = lab.name.bytes ++ [0] ++ pc := by simp
  rw [shape]
  refine ((reads_name lab.name.noNul_bytes lab.name.short).bind (fun name named => ?_) ?_).congr
    (and_iff_left trivial)
  · exact Gives.reads (gives_operand isPc).map ⟨rfl, name, rfl, named⟩
  · intro name reader except rest isOk isKind
    obtain ⟨pc, -, rfl⟩ := ok_map_iff.mp isOk
    obtain ⟨string, isString, named⟩ := isKind.name
    cases isString
    exact named

theorem cases_low (except : ExceptDecl) :
    (except.cases &&& 0xffff#32).toNat = except.labs.length % 2 ^ 16 := by
  have mask : (0xffff#32).toNat = 2 ^ 16 - 1 := rfl
  have high : (BitVec.ofNat 32 except.ne <<< 16).toNat % 2 ^ 16 = 0 := by
    rw [BitVec.toNat_shiftLeft, Nat.shiftLeft_eq]
    omega
  calc (except.cases &&& 0xffff#32).toNat
    _ = except.cases.toNat % 2 ^ 16 := by
      rw [BitVec.toNat_and, mask, Nat.and_two_pow_sub_one_eq_mod]
    _ = except.labs.length % 2 ^ 32 % 2 ^ 16 := by
      rw [ExceptDecl.cases, BitVec.toNat_or, Nat.or_mod_two_pow, high, Nat.or_zero,
        BitVec.toNat_ofNat]
    _ = except.labs.length % 2 ^ 16 := by omega

theorem cases_high {except : ExceptDecl} (small : except.labs.length < 2 ^ 16) :
    (except.cases.sshiftRight 16).toInt = (except.ne : ℤ).bmod (2 ^ 16) := by
  have within := except.within
  have isNat : except.cases.toNat = except.ne * 2 ^ 16 + except.labs.length := by
    have shifted : (BitVec.ofNat 32 except.ne <<< 16).toNat = except.ne <<< 16 := by
      rw [BitVec.toNat_shiftLeft, BitVec.toNat_ofNat, Nat.mod_eq_of_lt (by omega),
        Nat.shiftLeft_eq, Nat.mod_eq_of_lt (by omega), Nat.shiftLeft_eq]
    calc except.cases.toNat
      _ = except.labs.length ||| except.ne <<< 16 := by
        rw [ExceptDecl.cases, BitVec.toNat_or, shifted, BitVec.toNat_ofNat,
          Nat.mod_eq_of_lt (by omega)]
      _ = except.ne <<< 16 + except.labs.length := by
        rw [Nat.or_comm, ← Nat.shiftLeft_add_eq_or_of_lt small]
      _ = except.ne * 2 ^ 16 + except.labs.length := by
        rw [Nat.shiftLeft_eq]
  rw [BitVec.toInt_sshiftRight, BitVec.toInt_eq_toNat_bmod, isNat, Int.shiftRight_eq_div_pow,
    Int.bmod_def, Int.bmod_def]
  push_cast
  omega

/-- The descriptor of a handler is found by its number. -/
theorem gives_handlerType {desc : Option ℕ} (small : descs.length < 2 ^ 31)
    (inside : ∀ id ∈ desc, id < descs.length) :
    Gives (handlerType (descs.map fun desc => some desc.read)
        ((desc.map (BitVec.ofNat 32)).getD (-1))) []
      (desc.map fun id => (BitVec.ofNat 32 id, (descs[id]?).map Desc.read)) := by
  cases desc with
  | none => exact fun _ => rfl
  | some id =>
      have isInside := inside id rfl
      have number : (BitVec.ofNat 32 id).toInt = id := toInt_ofNat (by omega)
      have notNone : BitVec.ofNat 32 id ≠ noErrorHandleTypeDesc := by
        intro isNone
        rw [isNone] at number
        have negative : noErrorHandleTypeDesc.toInt = -1 := rfl
        omega
      unfold handlerType
      simp only [Option.map_some, Option.getD_some]
      rw [if_neg notNone, number, if_neg (by omega), Int.toNat_natCast, List.getElem?_map,
        List.getElem?_eq_getElem isInside]
      exact Gives.pure _

/-- The handler with the descriptor and the entries that have been read. -/
def handlerEntry (descs : List Desc) (except : ExceptDecl) (exceptions : List ExceptionEntry)
    (wildcardPc : Word) : HandlerEntry where
  exceptionOffset := except.offset
  beginPc := except.pc1
  endPc := except.pc2
  typeDesc := except.desc.map fun id => (BitVec.ofNat 32 id, (descs[id]?).map Desc.read)
  exceptionTable := exceptions ++ [⟨wildcardPc, none⟩]
  exceptionTypeCount := except.cases.sshiftRight 16

theorem handlerOf_iff {except : ExceptDecl} {exceptions : List ExceptionEntry}
    {wildcardPc : Word} (small : except.labs.length < 2 ^ 16) :
    HandlerOf descs except (handlerEntry descs except exceptions wildcardPc) ↔
      List.Forall₂ ExceptionOf except.labs exceptions ∧
        wildcardPc = except.iwild.getD (-1) ∧ except.ne < 2 ^ 15 := by
  have within := except.within
  have isCount : (except.cases.sshiftRight 16).toInt = except.ne ↔ except.ne < 2 ^ 15 := by
    rw [cases_high small, Int.bmod_def]
    omega
  constructor
  · intro handlerOf
    have areExceptions := handlerOf.exceptions
    have isWildcard := handlerOf.wildcard
    simp only [handlerEntry, List.dropLast_concat] at areExceptions
    simp only [handlerEntry, List.getLast?_concat, Option.some.injEq, ExceptionEntry.mk.injEq,
      and_true] at isWildcard
    exact ⟨areExceptions, isWildcard, isCount.mp handlerOf.exceptionTypeCount⟩
  · rintro ⟨areExceptions, rfl, few⟩
    refine ⟨rfl, rfl, rfl, rfl, ?_, ?_, isCount.mpr few⟩
    · simpa only [handlerEntry, List.dropLast_concat] using areExceptions
    · simp only [handlerEntry, List.getLast?_concat]

/-- What is read after the numbers of a handler. -/
theorem reads_exceptions {except : ExceptDecl} {labs iwild : List UInt8}
    (areLabs : concat dislabel except.labs = some labs)
    (isWild : disoptional except.iwild = some iwild) :
    Reads (do
      let exceptions ← Parse.times readException (except.labs.length % 2 ^ 16)
      let wildcardPc ← readOperand
      return handlerEntry descs except exceptions wildcardPc) (labs ++ iwild)
      (HandlerOf descs except)
      (except.InRange ∧ ∀ lab ∈ except.labs, Storable lab.name.bytes) := by
  by_cases inRange : except.InRange
  · have table : Reads (Parse.times readException except.labs.length) labs
        (List.Forall₂ ExceptionOf except.labs) (∀ lab ∈ except.labs, Storable lab.name.bytes) :=
      reads_times (fun _ _ _ => reads_label) areLabs
    have last : ∀ exceptions, List.Forall₂ ExceptionOf except.labs exceptions → Reads (do
        let wildcardPc ← readOperand
        return handlerEntry descs except exceptions wildcardPc) iwild
        (HandlerOf descs except) True := by
      intro exceptions areExceptions
      refine Gives.reads (gives_operand isWild).map ?_
      exact (handlerOf_iff inRange.1).mpr ⟨areExceptions, rfl, inRange.2⟩
    rw [Nat.mod_eq_of_lt inRange.1]
    refine (table.bind last ?_).congr (by simp only [inRange, true_and, and_true])
    intro exceptions reader handler rest isOk handlerOf
    obtain ⟨wildcardPc, -, rfl⟩ := ok_map_iff.mp isOk
    exact ((handlerOf_iff inRange.1).mp handlerOf).1
  · refine ⟨fun both => absurd both.1 inRange, fun rest handler reader isOk handlerOf => ?_⟩
    obtain ⟨exceptions, middle, exceptionsOk, isOk⟩ := ok_bind_iff.mp isOk
    obtain ⟨wildcardPc, -, rfl⟩ := ok_map_iff.mp isOk
    have length := length_times exceptionsOk
    have sameLength := handlerOf.exceptions.length_eq
    simp only [handlerEntry, List.dropLast_concat] at sameLength
    have few : except.labs.length < 2 ^ 16 := by
      have bound := Nat.mod_lt except.labs.length (show 0 < 2 ^ 16 by decide)
      omega
    exact absurd ⟨few, ((handlerOf_iff few).mp handlerOf).2.2⟩ inRange

theorem reads_handler {except : ExceptDecl} (small : descs.length < 2 ^ 31)
    (inside : ∀ id ∈ except.desc, id < descs.length) (written : disexcept except = some bytes) :
    Reads (readHandler (descs.map fun desc => some desc.read)) bytes
      (HandlerOf descs except)
      (except.InRange ∧ ∀ lab ∈ except.labs, Storable lab.name.bytes) := by
  obtain ⟨offset, isOffset, written⟩ := Option.bind_eq_some_iff.mp written
  obtain ⟨pc1, isPc1, written⟩ := Option.bind_eq_some_iff.mp written
  obtain ⟨pc2, isPc2, written⟩ := Option.bind_eq_some_iff.mp written
  obtain ⟨desc, isDesc, written⟩ := Option.bind_eq_some_iff.mp written
  obtain ⟨numbers, areNumbers, written⟩ := Option.bind_eq_some_iff.mp written
  obtain ⟨labs, areLabs, written⟩ := Option.bind_eq_some_iff.mp written
  obtain ⟨iwild, isWild, isBytes⟩ := Option.bind_eq_some_iff.mp written
  cases isBytes
  have shape : offset ++ pc1 ++ pc2 ++ desc ++ numbers ++ labs ++ iwild =
      offset ++ (pc1 ++ (pc2 ++ (desc ++ ([] ++ (numbers ++ (labs ++ iwild)))))) := by
    simp only [List.append_assoc, List.nil_append]
  rw [shape]
  refine Reads.bind_gives (gives_operand isOffset) (Reads.bind_gives (gives_operand isPc1) ?_)
  refine Reads.bind_gives (gives_operand isPc2) (Reads.bind_gives (gives_operand isDesc) ?_)
  refine Reads.bind_gives (gives_handlerType small inside) ?_
  refine Reads.bind_gives (gives_operandUnchecked areNumbers) ?_
  rw [cases_low]
  exact reads_exceptions areLabs isWild

theorem reads_exc {excepts : List ExceptDecl} (small : descs.length < 2 ^ 31)
    (inside : ∀ except ∈ excepts, ∀ id ∈ except.desc, id < descs.length)
    (written : disexc excepts = some bytes) :
    Reads (readHandlerSection (descs.map fun desc => some desc.read)) bytes
      (List.Forall₂ (HandlerOf descs) excepts)
      (∀ except ∈ excepts, except.InRange ∧ ∀ lab ∈ except.labs, Storable lab.name.bytes) := by
  obtain ⟨count, isCount, written⟩ := Option.bind_eq_some_iff.mp written
  obtain ⟨entries, areEntries, written⟩ := Option.bind_eq_some_iff.mp written
  obtain ⟨last, isLast, isBytes⟩ := Option.bind_eq_some_iff.mp written
  cases isBytes
  obtain ⟨isInt, isCount⟩ := discount_eq isCount
  rw [last_zero isLast, List.append_assoc]
  refine Reads.bind_gives (gives_operandUnchecked isCount) (Reads.final ?_)
  exact reads_counted (toInt_ofNat isInt)
    (fun except member _ => reads_handler small (inside except member)) areEntries

end Handlers

/-- A module as the reader keeps it. -/
structure Reproduces (m : Source) (memory : Memory) (loaded : VmModule) : Prop where
  header : loaded.header = m.header
  codeSection : loaded.codeSection = m.insts.written.map Inst.read
  typeSection : loaded.typeSection = m.descs.map fun desc => some desc.read
  originalMp : loaded.originalMp = memory
  moduleName : Named (cutName m.name) loaded.moduleName
  exportSection : List.Forall₂ ExportOf m.links loaded.exportSection
  importSection : List.Forall₂ (List.Forall₂ ImportOf) m.modules loaded.importSection
  handlerSection : List.Forall₂ (HandlerOf m.descs) m.excepts loaded.handlerSection

/-- What the reader checks. -/
structure Accepted (m : Source) : Prop where
  current : ¬ hasFlag m.hints hasImportDeprecated
  entry : m.EntryInside
  maps : ∀ desc ∈ m.descs, desc.map.length ≤ maxMap

/-- Strings can be made of the names, and the numbers of labels fit. -/
structure Representable (m : Source) : Prop where
  name : Storable (cutName m.name)
  links : ∀ link ∈ m.links, Storable link.parts.2.2.2
  modules : ∀ functions ∈ m.modules, ∀ function ∈ functions, Storable function.name.bytes
  excepts : ∀ except ∈ m.excepts,
    except.InRange ∧ ∀ lab ∈ except.labs, Storable lab.name.bytes

/-- The bytes of a module with those of its data section. -/
def Sections.bytes (sections : Sections) (data : List UInt8) : List UInt8 :=
  sections.header ++ (sections.insts ++ (sections.descs ++ (data ++ (sections.mod ++
    (sections.ldts ++ sections.excs)))))

/-- What the data section is read with. -/
def Source.setting (m : Source) (allocates : ℕ → Bool) : Setting where
  typeSection := m.descs.map fun desc => some desc.read
  typeSize := m.header.typeSize
  dataSize := m.header.dataSize
  allocates := allocates

/-- The name of the module and its links. -/
def readMod (header : ModuleHeader) :
    Parse (VmString × List ExportFunction) := do
  let moduleName ← readName
  let exportSection ← readLinkSection header
  return (moduleName, exportSection)

/-- Every section is read back by its reader, which takes its bytes, and so is the module. -/
structure RoundTrips (m : Source) (sections : Sections) (data : List UInt8) (memory : Memory)
    (allocates : ℕ → Bool) : Prop where
  header : Gives readModuleHeader sections.header m.header
  insts : Gives (readCodeSection m.header) sections.insts (m.insts.written.map Inst.read)
  descs : Gives (readTypeSection m.header) sections.descs
    (m.descs.map fun desc => some desc.read)
  mod : ∀ rest, ∃ name links, readMod m.header (sections.mod ++ rest) =
    .ok (name, links) rest ∧ Named (cutName m.name) name ∧ List.Forall₂ ExportOf m.links links
  ldts : hasFlag m.hints hasLdt → ∀ rest, ∃ modules,
    readImportSection (sections.ldts ++ rest) = .ok modules rest ∧
      List.Forall₂ (List.Forall₂ ImportOf) m.modules modules
  excs : hasFlag m.hints hasExcept → ∀ rest, ∃ handlers,
    readHandlerSection (m.descs.map fun desc => some desc.read) (sections.excs ++ rest) =
      .ok handlers rest ∧ List.Forall₂ (HandlerOf m.descs) m.excepts handlers
  whole : ∀ rest, ∃ loaded,
    readModule allocates (sections.bytes data ++ rest) = .ok loaded rest ∧
      Reproduces m memory loaded

section Modules

variable {m : Source} {sections : Sections} {data : List UInt8} {memory : Memory}
  {allocates : ℕ → Bool}

theorem reads_cut (name : SymbolName) :
    Reads readName (cutName name ++ [0]) (Named (cutName name)) (Storable (cutName name)) := by
  refine reads_name (fun member => name.noNul_bytes (List.mem_of_mem_take member)) ?_
  rw [cutName, List.length_take]
  unfold namelen
  omega

/-- The parts of the sections. -/
structure Written (m : Source) (sections : Sections) : Prop where
  header : disheader m = some sections.header
  insts : disinst m.insts = some sections.insts
  descs : disdesc m.descs = some sections.descs
  mod : dismod m.name m.links = some sections.mod
  ldts : (if hasFlag m.hints hasLdt then disldt m.modules else some []) = some sections.ldts
  excs : (if hasFlag m.hints hasExcept then disexc m.excepts else some []) = some sections.excs

theorem written_of_disSections (isWritten : disSections m = some sections) :
    Written m sections := by
  unfold disSections at isWritten
  obtain ⟨header, isHeader, isWritten⟩ := Option.bind_eq_some_iff.mp isWritten
  obtain ⟨insts, isInsts, isWritten⟩ := Option.bind_eq_some_iff.mp isWritten
  obtain ⟨descs, isDescs, isWritten⟩ := Option.bind_eq_some_iff.mp isWritten
  obtain ⟨mod, isMod, isWritten⟩ := Option.bind_eq_some_iff.mp isWritten
  obtain ⟨ldts, isLdts, isWritten⟩ := Option.bind_eq_some_iff.mp isWritten
  obtain ⟨excs, isExcs, isSections⟩ := Option.bind_eq_some_iff.mp isWritten
  cases isSections
  exact ⟨isHeader, isInsts, isDescs, isMod, isLdts, isExcs⟩

theorem reads_ldts (isWritten : Written m sections) :
    Reads (if hasFlag m.header.runtimeFlag hasImport then readImportSection else pure [])
      sections.ldts (List.Forall₂ (List.Forall₂ ImportOf) m.modules)
      (∀ functions ∈ m.modules, ∀ function ∈ functions, Storable function.name.bytes) := by
  have sameFlag : hasFlag m.header.runtimeFlag hasImport = hasFlag m.hints hasLdt := rfl
  have ldts := isWritten.ldts
  by_cases flag : hasFlag m.hints hasLdt
  · rw [if_pos flag] at ldts
    rw [if_pos (sameFlag ▸ flag)]
    exact reads_ldt ldts
  · rw [if_neg flag] at ldts
    rw [if_neg (sameFlag ▸ flag), ← Option.some.inj ldts, m.ldtFlag.resolve_left flag]
    exact (Reads.pure List.Forall₂.nil).congr (by simp)

theorem reads_excs (isWritten : Written m sections) (small : m.descs.length < 2 ^ 31) :
    Reads (if hasFlag m.header.runtimeFlag hasHandler
        then readHandlerSection (m.descs.map fun desc => some desc.read) else pure [])
      sections.excs (List.Forall₂ (HandlerOf m.descs) m.excepts)
      (∀ except ∈ m.excepts,
        except.InRange ∧ ∀ lab ∈ except.labs, Storable lab.name.bytes) := by
  have sameFlag : hasFlag m.header.runtimeFlag hasHandler = hasFlag m.hints hasExcept := rfl
  have excs := isWritten.excs
  by_cases flag : hasFlag m.hints hasExcept
  · rw [if_pos flag] at excs
    rw [if_pos (sameFlag ▸ flag)]
    exact reads_exc small m.descInside excs
  · rw [if_neg flag] at excs
    rw [if_neg (sameFlag ▸ flag), ← Option.some.inj excs, m.exceptFlag.resolve_left flag]
    exact (Reads.pure List.Forall₂.nil).congr (by simp)

theorem mod_spec (isWritten : Written m sections) :
    ∃ entries, concat dislink m.links = some entries ∧
      sections.mod = cutName m.name ++ [0] ++ entries := by
  obtain ⟨entries, areEntries, isMod⟩ := Option.bind_eq_some_iff.mp isWritten.mod
  refine ⟨entries, areEntries, ?_⟩
  rw [← Option.some.inj isMod, List.append_assoc, List.singleton_append]

theorem reads_mod (isWritten : Written m sections) (small : m.links.length < 2 ^ 31) :
    Reads (readMod m.header) sections.mod
      (fun read => Named (cutName m.name) read.1 ∧ List.Forall₂ ExportOf m.links read.2)
      (Storable (cutName m.name) ∧ ∀ link ∈ m.links, Storable link.parts.2.2.2) := by
  obtain ⟨entries, areEntries, isMod⟩ := mod_spec isWritten
  rw [isMod]
  apply Reads.bind (reads_cut m.name)
  · intro name named
    exact (reads_links small areEntries).map fun links => and_iff_right named
  · intro name reader read rest isOk isKind
    obtain ⟨links, -, rfl⟩ := ok_map_iff.mp isOk
    exact isKind.1

/-- The module that is made of the parts that have been read. -/
def loadedModule (m : Source) (memory : Memory) (moduleName : VmString)
    (exportSection : List ExportFunction) (importSection : List (List ImportFunction))
    (handlerSection : List HandlerEntry) : VmModule where
  header := m.header
  codeSection := m.insts.written.map Inst.read
  typeSection := m.descs.map fun desc => some desc.read
  originalMp := memory
  moduleName := moduleName
  exportSection := exportSection
  importSection := importSection
  handlerSection := handlerSection

/-- What is read after the link section. -/
def readTables (m : Source) (memory : Memory) (moduleName : VmString)
    (exportSection : List ExportFunction) : Parse VmModule := do
  let importSection ←
    (if hasFlag m.header.runtimeFlag hasImport then readImportSection else pure [])
  let handlerSection ←
    (if hasFlag m.header.runtimeFlag hasHandler
      then readHandlerSection (m.descs.map fun desc => some desc.read) else pure [])
  return loadedModule m memory moduleName exportSection importSection handlerSection

theorem reads_tables (isWritten : Written m sections) (small : m.descs.length < 2 ^ 31)
    {moduleName : VmString} {exportSection : List ExportFunction}
    (named : Named (cutName m.name) moduleName)
    (areExports : List.Forall₂ ExportOf m.links exportSection) :
    Reads (readTables m memory moduleName exportSection) (sections.ldts ++ sections.excs)
      (Reproduces m memory)
      ((∀ functions ∈ m.modules, ∀ function ∈ functions, Storable function.name.bytes) ∧
        ∀ except ∈ m.excepts,
          except.InRange ∧ ∀ lab ∈ except.labs, Storable lab.name.bytes) := by
  apply Reads.bind (reads_ldts isWritten)
  · intro importSection areImports
    refine (reads_excs isWritten small).map fun handlerSection => ?_
    exact ⟨Reproduces.handlerSection, fun areHandlers =>
      ⟨rfl, rfl, rfl, rfl, named, areExports, areImports, areHandlers⟩⟩
  · intro importSection reader loaded rest isOk reproduces
    obtain ⟨handlerSection, -, rfl⟩ := ok_map_iff.mp isOk
    exact reproduces.importSection

theorem readTables_names {moduleName : VmString} {exportSection : List ExportFunction} :
    Always (readTables m memory moduleName exportSection) fun loaded =>
      loaded.moduleName = moduleName ∧ loaded.exportSection = exportSection :=
  Always.bind fun _ => Always.bind fun _ => Always.pure ⟨rfl, rfl⟩

/-- What is read after the data section. -/
def readNames (m : Source) (memory : Memory) : Parse VmModule := do
  let moduleName ← readName
  let exportSection ← readLinkSection m.header
  readTables m memory moduleName exportSection

theorem reads_names (isWritten : Written m sections) (small : m.descs.length < 2 ^ 31)
    (fewLinks : m.links.length < 2 ^ 31) :
    Reads (readNames m memory) (sections.mod ++ (sections.ldts ++ sections.excs))
      (Reproduces m memory)
      (Storable (cutName m.name) ∧ (∀ link ∈ m.links, Storable link.parts.2.2.2) ∧
        (∀ functions ∈ m.modules, ∀ function ∈ functions, Storable function.name.bytes) ∧
        ∀ except ∈ m.excepts,
          except.InRange ∧ ∀ lab ∈ except.labs, Storable lab.name.bytes) := by
  obtain ⟨entries, areEntries, isMod⟩ := mod_spec isWritten
  rw [isMod, List.append_assoc]
  apply Reads.bind (reads_cut m.name)
  · intro moduleName named
    apply Reads.bind (reads_links fewLinks areEntries)
    · intro exportSection areExports
      exact reads_tables isWritten small named areExports
    · intro exportSection reader loaded rest isOk reproduces
      have same := readTables_names reader loaded rest isOk
      exact same.2 ▸ reproduces.exportSection
  · intro moduleName reader loaded rest isOk reproduces
    obtain ⟨exportSection, middle, -, isOk⟩ := ok_bind_iff.mp isOk
    have same := readTables_names middle loaded rest isOk
    exact same.1 ▸ reproduces.moduleName

/-- What is read after the code section. -/
def readTypesAndMore (m : Source) (allocates : ℕ → Bool) :
    Parse VmModule := do
  let typeSection ← readTypeSection m.header
  let originalMp ← readData {
    typeSection, typeSize := m.header.typeSize, dataSize := m.header.dataSize, allocates }
  let moduleName ← readName
  let exportSection ← readLinkSection m.header
  let importSection ←
    (if hasFlag m.header.runtimeFlag hasImport then readImportSection else pure [])
  let handlerSection ←
    (if hasFlag m.header.runtimeFlag hasHandler then readHandlerSection typeSection
    else pure [])
  return {
    header := m.header, codeSection := m.insts.written.map Inst.read, typeSection, originalMp
    moduleName, exportSection, importSection, handlerSection }

theorem readTypesAndMore_types (isWritten : Written m sections)
    (small : m.descs.length < 2 ^ 31) (fewLinks : m.links.length < 2 ^ 31)
    (dataRead : Gives (readData (m.setting allocates)) data memory) :
    Reads (readTypesAndMore m allocates)
      (sections.descs ++ (data ++ (sections.mod ++ (sections.ldts ++ sections.excs))))
      (Reproduces m memory)
      ((∀ desc ∈ m.descs, desc.map.length ≤ maxMap) ∧ Storable (cutName m.name) ∧
        (∀ link ∈ m.links, Storable link.parts.2.2.2) ∧
        (∀ functions ∈ m.modules, ∀ function ∈ functions, Storable function.name.bytes) ∧
        ∀ except ∈ m.excepts,
          except.InRange ∧ ∀ lab ∈ except.labs, Storable lab.name.bytes) := by
  apply Reads.bind (reads_types small isWritten.descs)
  · rintro typeSection rfl
    exact Reads.bind_gives dataRead (reads_names isWritten small fewLinks)
  · intro typeSection reader loaded rest isOk reproduces
    obtain ⟨_, _, -, isOk⟩ := ok_bind_iff.mp isOk
    obtain ⟨_, _, -, isOk⟩ := ok_bind_iff.mp isOk
    obtain ⟨_, _, -, isOk⟩ := ok_bind_iff.mp isOk
    obtain ⟨_, _, -, isOk⟩ := ok_bind_iff.mp isOk
    obtain ⟨_, -, rfl⟩ := ok_map_iff.mp isOk
    exact reproduces.typeSection

theorem reads_module (isWritten : Written m sections)
    (dataRead : Gives (readData (m.setting allocates)) data memory) :
    Reads (readModule allocates) (sections.bytes data) (Reproduces m memory)
      (Accepted m ∧ Representable m) := by
  obtain ⟨givesHeader, fewInsts, fewDescs, fewLinks⟩ :=
    @header_spec sections.header m isWritten.header
  have sameFlag : hasFlag m.header.runtimeFlag hasImportDeprecated =
    hasFlag m.hints hasImportDeprecated := rfl
  by_cases deprecated : hasFlag m.hints hasImportDeprecated
  · have refused : ∀ rest, readModule allocates (sections.bytes data ++ rest) = .thrown := by
      intro rest
      unfold readModule Sections.bytes
      rw [List.append_assoc, givesHeader.bind_eq, if_pos (sameFlag ▸ deprecated)]
      rfl
    constructor
    · exact fun both => absurd deprecated both.1.current
    · intro rest loaded reader isOk
      rw [refused] at isOk
      cases isOk
  · have later := readTypesAndMore_types isWritten fewDescs fewLinks dataRead
    have isCode := @code_spec _ m fewInsts isWritten.insts
    apply Reads.bind_gives givesHeader
    rw [if_neg (sameFlag ▸ deprecated)]
    refine Reads.congr (Reads.bind_or isCode.1 isCode.2 fun _ => later) ⟨?_, ?_⟩
    · rintro ⟨entry, maps, name, links, modules, excepts⟩
      exact ⟨⟨deprecated, entry, maps⟩, name, links, modules, excepts⟩
    · rintro ⟨⟨-, entry, maps⟩, name, links, modules, excepts⟩
      exact ⟨entry, maps, name, links, modules, excepts⟩

/-- A module is read back section by section if and only if it passes the checks, its names
can be kept and its numbers of labels fit. -/
theorem roundTrips_iff (isWritten : disSections m = some sections)
    (dataRead : Gives (readData (m.setting allocates)) data memory) :
    RoundTrips m sections data memory allocates ↔ Accepted m ∧ Representable m := by
  have parts := written_of_disSections isWritten
  obtain ⟨givesHeader, fewInsts, fewDescs, fewLinks⟩ :=
    @header_spec sections.header m parts.header
  have module := reads_module parts dataRead
  constructor
  · intro roundTrips
    obtain ⟨loaded, isOk, reproduces⟩ := roundTrips.whole []
    exact module.only [] loaded [] isOk reproduces
  · rintro ⟨accepted, representable⟩
    exact {
      header := givesHeader
      insts := (code_spec fewInsts parts.insts).1 accepted.entry
      descs := by
        intro rest
        obtain ⟨types, isOk, rfl⟩ :=
          (reads_types fewDescs parts.descs).back accepted.maps rest
        exact isOk
      mod := by
        intro rest
        obtain ⟨⟨name, links⟩, isOk, named, areLinks⟩ :=
          (reads_mod parts fewLinks).back ⟨representable.name, representable.links⟩ rest
        exact ⟨name, links, isOk, named, areLinks⟩
      ldts := by
        intro flag rest
        have ldts := parts.ldts
        rw [if_pos flag] at ldts
        exact (reads_ldt ldts).back representable.modules rest
      excs := by
        intro flag rest
        have excs := parts.excs
        rw [if_pos flag] at excs
        exact (reads_exc fewDescs m.descInside excs).back representable.excepts rest
      whole := module.back ⟨accepted, representable⟩ }

/-- Modules whose names can be kept are read back, if they pass the checks of the reader. -/
theorem module_round_trip (isWritten : disSections m = some sections)
    (dataRead : Gives (readData (m.setting allocates)) data memory)
    (representable : Representable m) :
    RoundTrips m sections data memory allocates ↔ Accepted m :=
  (roundTrips_iff isWritten dataRead).trans (and_iff_left representable)

end Modules

/-- `init`. -/
def initName : FunctionName where
  link := ⟨none, [105, 110, 105, 116]⟩
  scalars := by decide
  noNul := by decide
  short := by decide

/-- `ret`. -/
def ret : Inst where
  op := 12
  s := ⟨.none, 0, 0, 0⟩
  m := ⟨⟨.none, 0, 0, 0⟩, by decide⟩
  d := ⟨.none, 0, 0, 0⟩

/-- `Hello`. -/
def hello : SymbolName where
  runes := [72, 101, 108, 108, 111]
  scalars := by decide
  noNul := by decide
  short := by decide

/-- `print`. -/
def printName : FunctionName where
  link := ⟨none, [112, 114, 105, 110, 116]⟩
  scalars := by decide
  noNul := by decide
  short := by decide

/-- `fail*`. -/
def failName : SymbolName where
  runes := [102, 97, 105, 108, 42]
  scalars := by decide
  noNul := by decide
  short := by decide

/-- `addw $5, 40(fp), 8(44(fp))`. -/
def addw : Inst where
  op := 58
  s := ⟨.imm, 0, 5, 0⟩
  m := ⟨⟨.fp, 40, 0, 0⟩, by decide⟩
  d := ⟨.fpind, 44, 8, 0⟩

/-- The exception goes into the second pointer of the frame. -/
def failHandler : ExceptDecl where
  offset := 48
  pc1 := 0
  pc2 := 1
  desc := some 1
  labs := [⟨failName, 1⟩]
  ne := 1
  iwild := none
  within := by decide

def fullModule : Source where
  hints := 96
  maxstack := 0
  insts := [some addw, none, some ret]
  offset := 0
  descs := [⟨40, [0]⟩, ⟨56, [0, 0x88]⟩]
  name := hello
  links := [.global 0x11223344, .fn 0 1 0x4244b354 initName]
  entry := some (0, 1)
  modules := [[⟨0xac849033, printName⟩]]
  excepts := [failHandler]
  ldtFlag := .inl (by decide)
  exceptFlag := .inl (by decide)
  descInside := by decide

def fullSections : Sections where
  header := [192, 12, 128, 48, 128, 96, 0, 2, 0, 2, 2, 0, 1]
  insts := [58, 149, 40, 5, 44, 8, 12, 27]
  descs := [0, 40, 1, 0, 1, 56, 2, 0, 0x88]
  mod := [72, 101, 108, 108, 111, 0, 127, 127, 0x11, 0x22, 0x33, 0x44, 46, 109, 112, 0, 0, 1,
    0x42, 0x44, 0xb3, 0x54, 105, 110, 105, 116, 0]
  ldts := [1, 1, 0xac, 0x84, 0x90, 0x33, 112, 114, 105, 110, 116, 0, 0]
  excs := [1, 48, 0, 1, 1, 192, 1, 0, 1, 102, 97, 105, 108, 42, 0, 1, 127, 0]

theorem storable_symbol {name : SymbolName} (room : HasRoom name.runes) : Storable name.bytes :=
  ⟨name.runes, name.scalars, rfl, room⟩

/-- A module with operands, imports and a handler. -/
theorem full_round_trips :
    RoundTrips fullModule fullSections [0] noMemory (fun _ => true) := by
  have dataRead : Gives (readData (fullModule.setting fun _ => true)) [0] noMemory :=
    fun _ => rfl
  have isName : Storable hello.bytes := storable_symbol (by decide)
  have isModuleData : Storable moduleDataName :=
    ⟨[46, 109, 112], by decide, rfl, by decide⟩
  have isInit : Storable initName.bytes := ⟨initName.link.runes, initName.scalars, rfl, by decide⟩
  have isPrint : Storable printName.bytes :=
    ⟨printName.link.runes, printName.scalars, rfl, by decide⟩
  have isFail : Storable failName.bytes := storable_symbol (by decide)
  have representable : Representable fullModule :=
    { name := isName
      links := List.forall_mem_cons.mpr
        ⟨isModuleData, List.forall_mem_singleton.mpr isInit⟩
      modules := List.forall_mem_singleton.mpr (List.forall_mem_singleton.mpr isPrint)
      excepts := List.forall_mem_singleton.mpr
        ⟨⟨by decide, by decide⟩, List.forall_mem_singleton.mpr isFail⟩ }
  refine (module_round_trip (by decide) dataRead representable).mpr ⟨?_, ?_, ?_⟩
  · decide
  · intro entry
    decide
  · exact List.forall_mem_cons.mpr ⟨by decide, List.forall_mem_singleton.mpr (by decide)⟩

def smallModule (hints : Word) (name : SymbolName) : Source where
  hints := hints
  maxstack := 0
  insts := [some ret]
  offset := 0
  descs := [⟨40, [0]⟩]
  name := name
  links := [.fn 0 0 0x4244b354 initName]
  entry := some (0, 0)
  modules := []
  excepts := []
  ldtFlag := .inr rfl
  exceptFlag := .inr rfl
  descInside := fun _ member => by cases member

/-- Fourteen letters of two bytes each. -/
def longName : SymbolName where
  runes := List.replicate 14 0xe9
  scalars := by decide
  noNul := by decide
  short := by decide

theorem gives_noData {hints : Word} {name : SymbolName} {allocates : ℕ → Bool} :
    Gives (readData ((smallModule hints name).setting allocates)) [0] noMemory :=
  fun _ => rfl

def smallSections (hints name : List UInt8) : Sections where
  header := [192, 12, 128, 48] ++ hints ++ [0, 1, 0, 1, 1, 0, 0]
  insts := [12, 27]
  descs := [0, 40, 1, 0]
  mod := name ++ [0, 0, 0, 0x42, 0x44, 0xb3, 0x54, 105, 110, 105, 116, 0]
  ldts := []
  excs := []

/-- The flag of old tables is refused, and so is a name that is cut inside of a letter. -/
theorem modules_not_round_trip :
    (∃ sections, disSections (smallModule 16 hello) = some sections ∧
      Gives (readData ((smallModule 16 hello).setting fun _ => true)) [0] noMemory ∧
      ¬ RoundTrips (smallModule 16 hello) sections [0] noMemory fun _ => true) ∧
    ∃ sections, disSections (smallModule 0 longName) = some sections ∧
      Gives (readData ((smallModule 0 longName).setting fun _ => true)) [0]
        noMemory ∧
      ¬ RoundTrips (smallModule 0 longName) sections [0] noMemory fun _ => true := by
  constructor
  · refine ⟨smallSections [16] [72, 101, 108, 108, 111], by decide, gives_noData, ?_⟩
    intro roundTrips
    have accepted := ((roundTrips_iff (by decide) gives_noData).mp roundTrips).1
    exact accepted.current (by decide)
  · refine ⟨smallSections [0] (cutName longName), by decide, gives_noData, ?_⟩
    intro roundTrips
    have representable := ((roundTrips_iff (by decide) gives_noData).mp roundTrips).2
    have refused : ∀ name, VmString.ofUtf8 (cutName longName) ≠ .ok name := by
      intro name made
      have error : (VmString.ofUtf8 (cutName longName)).toOption = none := by decide +kernel
      rw [made] at error
      cases error
    have noNul : 0 ∉ cutName longName := by decide
    obtain ⟨name, made, -⟩ := (named_iff noNul (by decide)).mpr representable.name
    exact refused name made

end Disvm.ModuleWriter
