import Disvm.DecimalText

/-!
# Source ranges of symbol files

The compiler writes the source range of every instruction with what differs from the
range before it: a file or a line that has not changed is left out.  The reader keeps
the last file and line and puts them in again.
-/

namespace Disvm.SymbolFile

open DecimalText

inductive ReadError where
  | invalidArgument
  | outOfRange
  | length
  | runtime (message : String)
  deriving DecidableEq, Repr

def IsWord (value : ℤ) : Prop :=
  -2 ^ 31 ≤ value ∧ value < 2 ^ 31

instance (value : ℤ) : Decidable (IsWord value) :=
  inferInstanceAs (Decidable (_ ∧ _))

/-- `std::isspace`. -/
def isSpace (character : Char) : Bool :=
  [' ', '\t', '\n', '\x0b', '\x0c', '\r'].contains character

/-- `std::stoi`, with the text behind the number. -/
def stoi (text : List Char) : Except ReadError (ℤ × List Char) :=
  match readInt (text.dropWhile isSpace) with
  | none => .error .invalidArgument
  | some (value, rest) =>
      if IsWord value then .ok (value, rest) else .error .outOfRange

/-- `disvm::util::split`. -/
def split (delimiters : List Char) (text : List Char) : List (List Char) :=
  splitFrom delimiters [] text

/-- `source_ref_t`. -/
structure SourceRef where
  beginSourceId : ℤ
  beginLine : ℤ
  beginColumn : ℤ
  endSourceId : ℤ
  endLine : ℤ
  endColumn : ℤ
  deriving DecidableEq, Repr

/-- `sbl_read_context_t`. -/
structure ReadContext where
  pcCount : ℤ
  lastFile : ℤ
  lastLine : ℤ
  deriving DecidableEq, Repr

/-- A number at the end of a position is its column. -/
def SourceRef.column (src : SourceRef) (isBegin : Bool) (value : ℤ) : SourceRef :=
  let src := if isBegin then { src with beginColumn := value } else src
  { src with endColumn := value }

/-- A number in front of a mark is the line or the file, in the begin position for both
ends. -/
def mark (isBegin : Bool) (character : Char) (value : ℤ) (state : SourceRef × ReadContext) :
    SourceRef × ReadContext :=
  let (src, fc) := state
  if character = '.' then
    let src := if isBegin then { src with beginLine := value } else src
    ({ src with endLine := value }, { fc with lastLine := value })
  else if character = ':' then
    let src := if isBegin then { src with beginSourceId := value } else src
    ({ src with endSourceId := value }, { fc with lastFile := value })
  else (src, fc)

/-- The loop over one position, at most as often as it has characters. -/
def readPos (isBegin : Bool) : ℕ → List Char → SourceRef × ReadContext →
    Except ReadError (SourceRef × ReadContext)
  | 0, _, state => .ok state
  | _ + 1, [], state => .ok state
  | fuel + 1, first :: text, state => do
      let (value, rest) ← stoi (first :: text)
      match rest with
      | [] => return (state.1.column isBegin value, state.2)
      | character :: rest => readPos isBegin fuel rest (mark isBegin character value state)

/-- `uninitialized` is what the variable `src` has in its place before it is written. -/
def readSrcEntry (uninitialized : SourceRef) (srcStr : List Char) (fc : ReadContext) :
    Except ReadError (SourceRef × ReadContext) :=
  match split [','] srcStr with
  | [start, stop] => do
      let src := { uninitialized with
        beginSourceId := fc.lastFile
        beginLine := fc.lastLine
        endLine := fc.lastLine }
      let state ← readPos true start.length start (src, fc)
      readPos false stop.length stop state
  | _ => .error (.runtime "Invalid source item")

/-- `pc_item_t`. -/
structure PcItem where
  source : SourceRef
  debugStatement : ℤ
  deriving DecidableEq, Repr

def readPcItems (uninitialized : ℕ → SourceRef) : ℕ → ℕ → List Char → ReadContext →
    Except ReadError (List PcItem × ReadContext × List Char)
  | _, 0, text, fc => .ok ([], fc, text)
  | pc, count + 1, text, fc => do
      let (item, text) := readUntil '\n' text
      match split [' '] item with
      | [srcStr, statement] =>
          let (source, fc) ← readSrcEntry (uninitialized pc) srcStr fc
          let (debugStatement, _) ← stoi statement
          let (items, fc, text) ← readPcItems uninitialized (pc + 1) count text fc
          return ({ source, debugStatement } :: items, fc, text)
      | _ => .error (.runtime "Invalid PC item")

/-- The table, the context and the text behind the table. -/
def readPcTable (uninitialized : ℕ → SourceRef) (text : List Char) (fc : ReadContext) :
    Except ReadError (List PcItem × ReadContext × List Char) := do
  let (countStr, text) := readUntil '\n' text
  let (count, _) ← stoi countStr
  if count < 0 then .error .length
  else
    let (table, fc, text) ← readPcItems uninitialized 0 count.toNat text fc
    return (table, { fc with pcCount := count }, text)

/-- What `fline` makes of a line of the program: the number of a file and a line of it,
both of them words. -/
structure FileLine where
  file : ℤ
  line : ℤ
  isFile : IsWord file
  isLine : IsWord line

/-- `Src`: lines and columns in one word each. -/
structure Src where
  start : ℤ
  stop : ℤ
  deriving DecidableEq, Repr

structure Inst where
  noop : Bool
  src : Src
  block : ℕ
  deriving DecidableEq, Repr

def posBits : ℕ :=
  10

/-- `& PosMask`. -/
def column (position : ℤ) : ℤ :=
  position % 2 ^ posBits

/-- The digits that are put in front of a text until the number is used up, at most
`MAXSBLINT` of them. -/
def sbldigits : ℕ → ℤ → List Char → List Char
  | 0, _, text => text
  | room + 1, value, text =>
      if 0 < value then
        sbldigits room (value / 10) ((value % 10).toNat.digitChar :: text)
      else text

def maxSblint : ℕ :=
  12

/-- The negation of the least word is the least word. -/
def sblint (value : ℤ) : List Char :=
  if value = 0 then ['0']
  else if value < 0 then '-' :: sbldigits maxSblint (Int.bmod (-value) (2 ^ 32)) []
  else sbldigits maxSblint value []

/-- `lastf` and `lastline`. -/
structure Last where
  file : ℤ
  line : ℤ
  deriving DecidableEq, Repr

/-- A number that is written only if it has changed. -/
def field (write : ℤ → List Char) (changed : Prop) [Decidable changed] (value : ℤ)
    (character : Char) : List Char :=
  if changed then write value ++ [character] else []

/-- A source range, with the way in which numbers are written. -/
def srcconv (write : ℤ → List Char) (fline : ℤ → FileLine) (last : Last) (src : Src) :
    List Char × Last :=
  let start := fline (src.start / 2 ^ posBits)
  let stop := fline (src.stop / 2 ^ posBits)
  (field write (last.file ≠ start.file) start.file ':' ++
      (field write (last.line ≠ start.line) start.line '.' ++ (write (column src.start) ++
        ',' :: (field write (start.file ≠ stop.file) stop.file ':' ++
          (field write (start.line ≠ stop.line) stop.line '.' ++ (write (column src.stop) ++
            [' ']))))),
    { file := stop.file, line := stop.line })

/-- The source range of an instruction, in a buffer. -/
def sblsrcconvb (fline : ℤ → FileLine) (last : Last) (src : Src) : List Char × Last :=
  srcconv sblint fline last src

/-- An instruction without a source has the one before it, and one without a stop
stops behind its start. -/
def instSrc (previous : Src) (src : Src) : Src :=
  if src.start = 0 ∧ src.stop = 0 then previous
  else if src.stop = 0 then { src with stop := Int.bmod (src.start + 1) (2 ^ 32) }
  else src

/-- The state of `sblinst`; a block without a number has `-1`. -/
structure Sblinst where
  last : Last
  src : Src
  sblblocks : ℕ → ℤ
  blockid : ℤ

/-- The number of a block, a new one at its first instruction. -/
def Sblinst.block (state : Sblinst) (block : ℕ) : ℤ × Sblinst :=
  let b := state.sblblocks block
  if b < 0 then
    (state.blockid, { state with
      sblblocks := fun other => if other = block then state.blockid else state.sblblocks other
      blockid := state.blockid + 1 })
  else (b, state)

/-- The lines of the instructions; the compiler stops at one without a file. -/
def sblinstLines (fline : ℤ → FileLine) : Sblinst → List Inst → Option (List Char)
  | _, [] => some []
  | state, inst :: insts =>
      if inst.noop then sblinstLines fline state insts
      else if inst.src.start < 0 then none
      else do
        let src := instSrc state.src inst.src
        let (conv, last) := sblsrcconvb fline state.last src
        let (b, state) := ({ state with last, src }).block inst.block
        let rest ← sblinstLines fline state insts
        return conv ++ (sblint b ++ '\n' :: rest)

/-- `src` is what the variable has in its place at the beginning, `sblmod` has set the
others. -/
def sblinst (fline : ℤ → FileLine) (src : Src) (insts : List Inst) (ninst : ℕ) :
    Option (List Char) :=
  let state := { last := { file := 0, line := 0 }, src, sblblocks := fun _ => -1, blockid := 0 }
  (sblinstLines fline state insts).map fun lines => decimal ninst ++ '\n' :: lines

/-- The number of instructions, without those that are not written. -/
def resolvepcs (insts : List Inst) : ℕ :=
  (insts.filter fun inst => !inst.noop).length

/-- The least word, which `sblint` cannot negate. -/
def leastWord : ℤ :=
  -2 ^ 31

theorem sbldigits_eq {room value : ℕ} (fits : value < 10 ^ room) (text : List Char) :
    sbldigits room value text =
      if value = 0 then text else Nat.toDigits 10 value ++ text := by
  induction room generalizing value text with
  | zero =>
      have isZero : value = 0 := by simpa using fits
      rw [if_pos isZero]
      rfl
  | succ room ih =>
      rw [sbldigits]
      by_cases isZero : value = 0
      · rw [if_neg (by omega), if_pos isZero]
      · have quotient : value / 10 < 10 ^ room := by
          rw [Nat.pow_succ] at fits
          exact Nat.div_lt_of_lt_mul (by omega)
        have shifted : ((value : ℤ) / 10) = ((value / 10 : ℕ) : ℤ) := by omega
        have last : ((value : ℤ) % 10).toNat = value % 10 := by omega
        rw [if_pos (by omega), if_neg isZero, shifted, last, ih quotient]
        by_cases isDigit : value / 10 = 0
        · have below : value < 10 := by omega
          rw [if_pos isDigit, Nat.toDigits_of_lt_base below, Nat.mod_eq_of_lt below]
          rfl
        · have above : 10 ≤ value := by omega
          rw [if_neg isDigit, Nat.toDigits_of_base_le (by decide) above, List.append_assoc]
          rfl

theorem sblint_leastWord : sblint leastWord = ['-'] := by
  decide

theorem sblint_eq {value : ℤ} (isWord : IsWord value) (isOther : value ≠ leastWord) :
    sblint value = decimal value := by
  unfold IsWord leastWord at *
  unfold sblint decimal
  by_cases isZero : value = 0
  · subst isZero
    decide
  · rw [if_neg isZero]
    have digits := @sbldigits_eq maxSblint value.natAbs (by unfold maxSblint; omega) []
    rw [if_neg (by omega), List.append_nil] at digits
    by_cases isNegative : value < 0
    · rw [if_pos isNegative, if_pos isNegative, Int.bmod_eq_of_le (by omega) (by omega),
        ← Int.ofNat_natAbs_of_nonpos (by omega), digits]
    · rw [if_neg isNegative, if_neg isNegative]
      rwa [Int.natAbs_of_nonneg (by omega)] at digits

theorem isSpace_of_isDigit {character : Char} (isDigit : character.isDigit = true) :
    isSpace character = false := by
  cases isOther : isSpace character with
  | false => rfl
  | true =>
      have member := List.contains_iff_mem.mp isOther
      simp only [List.mem_cons, List.not_mem_nil, or_false] at member
      rcases member with rfl | rfl | rfl | rfl | rfl | rfl <;> cases isDigit

theorem dropWhile_isSpace_decimal (value : ℤ) (text : List Char) :
    (decimal value ++ text).dropWhile isSpace = decimal value ++ text := by
  cases isDecimal : decimal value with
  | nil => exact absurd isDecimal (decimal_ne_nil value)
  | cons first rest =>
      have member : first ∈ decimal value := isDecimal ▸ List.mem_cons_self
      have noSpace : isSpace first = false := by
        rcases mem_decimal member with rfl | isDigit
        · rfl
        · exact isSpace_of_isDigit isDigit
      exact List.dropWhile_cons_of_neg (Bool.eq_false_iff.mp noSpace)

theorem stoi_decimal {value : ℤ} (isWord : IsWord value) {text : List Char}
    (ends : Ends text) : stoi (decimal value ++ text) = .ok (value, text) := by
  rw [stoi, dropWhile_isSpace_decimal, readInt_decimal value ends]
  exact if_pos isWord

theorem stoi_sblint {value : ℤ} (isWord : IsWord value) {text : List Char}
    (ends : Ends text) :
    stoi (sblint value ++ text) =
      if value = leastWord then .error .invalidArgument else .ok (value, text) := by
  by_cases isLeast : value = leastWord
  · have noDigits : readInt ('-' :: text) = none := by
      show (readNat text).map _ = none
      rw [readNat_of_ends ends, Option.map_none]
    have noSpace : (['-'] ++ text).dropWhile isSpace = '-' :: text := rfl
    rw [if_pos isLeast, isLeast, sblint_leastWord, stoi, noSpace, noDigits]
  · rw [if_neg isLeast, sblint_eq isWord isLeast, stoi_decimal isWord ends]

/-- A way of writing numbers of which some are lost for the reader. -/
structure Numerals where
  write : ℤ → List Char
  Lost : ℤ → Prop
  isDecidable : DecidablePred Lost
  reads : ∀ {value : ℤ}, IsWord value → ∀ {text : List Char}, Ends text →
    stoi (write value ++ text) =
      if Lost value then .error .invalidArgument else .ok (value, text)
  natural : ∀ {value : ℤ}, 0 ≤ value → ¬ Lost value
  nonempty : ∀ {value : ℤ}, IsWord value → write value ≠ []
  letters : ∀ {value : ℤ}, IsWord value → ∀ {character : Char}, character ∈ write value →
    character = '-' ∨ character.isDigit = true

instance (numerals : Numerals) : DecidablePred numerals.Lost :=
  numerals.isDecidable

/-- Only the least word is lost in a buffer. -/
def sblintNumerals : Numerals where
  write := sblint
  Lost value := value = leastWord
  isDecidable _ := inferInstanceAs (Decidable (_ = _))
  reads isWord _ ends := stoi_sblint isWord ends
  natural isNatural isLeast := by
    rw [isLeast] at isNatural
    exact absurd isNatural (by decide)
  nonempty := by
    intro value isWord
    by_cases isLeast : value = leastWord
    · rw [isLeast, sblint_leastWord]
      exact List.cons_ne_nil _ _
    · rw [sblint_eq isWord isLeast]
      exact decimal_ne_nil value
  letters := by
    intro value isWord character member
    by_cases isLeast : value = leastWord
    · rw [isLeast, sblint_leastWord] at member
      exact Or.inl (List.mem_singleton.mp member)
    · rw [sblint_eq isWord isLeast] at member
      exact mem_decimal member

section Position

variable (numerals : Numerals)

/-- One end of a range with the file and the line that have changed. -/
def position (changedFile changedLine : Prop) [Decidable changedFile] [Decidable changedLine]
    (file line column : ℤ) : List Char :=
  field numerals.write changedFile file ':' ++
    (field numerals.write changedLine line '.' ++ numerals.write column)

/-- A number of the position is lost. -/
def Unreadable (changedFile changedLine : Prop) (file line : ℤ) : Prop :=
  (changedFile ∧ numerals.Lost file) ∨ (changedLine ∧ numerals.Lost line)

instance (changedFile changedLine : Prop) [Decidable changedFile] [Decidable changedLine]
    (file line : ℤ) : Decidable (Unreadable numerals changedFile changedLine file line) :=
  inferInstanceAs (Decidable (_ ∨ _))

def markIf (changed : Prop) [Decidable changed] (isBegin : Bool) (character : Char) (value : ℤ)
    (state : SourceRef × ReadContext) : SourceRef × ReadContext :=
  if changed then mark isBegin character value state else state

theorem markIf_file (changed : Prop) [Decidable changed] (isBegin : Bool) (value : ℤ)
    (src : SourceRef) (fc : ReadContext) :
    markIf changed isBegin ':' value (src, fc) =
      ({ src with
          beginSourceId := if changed ∧ isBegin = true then value else src.beginSourceId
          endSourceId := if changed then value else src.endSourceId },
        { fc with lastFile := if changed then value else fc.lastFile }) := by
  by_cases isChanged : changed
  · cases isBegin <;> simp [markIf, mark, isChanged]
  · simp [markIf, isChanged]

theorem markIf_line (changed : Prop) [Decidable changed] (isBegin : Bool) (value : ℤ)
    (src : SourceRef) (fc : ReadContext) :
    markIf changed isBegin '.' value (src, fc) =
      ({ src with
          beginLine := if changed ∧ isBegin = true then value else src.beginLine
          endLine := if changed then value else src.endLine },
        { fc with lastLine := if changed then value else fc.lastLine }) := by
  by_cases isChanged : changed
  · cases isBegin <;> simp [markIf, mark, isChanged]
  · simp [markIf, isChanged]

/-- What is left out is known already. -/
theorem written_eq (old new : ℤ) : (if old ≠ new then new else old) = new := by
  split
  · rfl
  · exact not_not.mp ‹_›

variable {numerals} {changedFile changedLine : Prop} [Decidable changedFile]
  [Decidable changedLine] {file line column : ℤ}

theorem letters_field {changed : Prop} [Decidable changed] {value : ℤ} (isWord : IsWord value)
    {mark character : Char} (member : character ∈ field numerals.write changed value mark) :
    character = mark ∨ character = '-' ∨ character.isDigit = true := by
  unfold field at member
  split at member
  · rcases List.mem_append.mp member with inNumber | isMark
    · exact Or.inr (numerals.letters isWord inNumber)
    · exact Or.inl (List.mem_singleton.mp isMark)
  · cases member

theorem position_ne_nil (isColumn : IsWord column) :
    position numerals changedFile changedLine file line column ≠ [] := by
  intro isNil
  obtain ⟨-, rest⟩ := List.append_eq_nil_iff.mp isNil
  exact numerals.nonempty isColumn (List.append_eq_nil_iff.mp rest).2

theorem notMem_position (isFile : IsWord file) (isLine : IsWord line) (isColumn : IsWord column)
    {character : Char} (noSign : character ≠ '-') (noDigit : character.isDigit = false)
    (noFile : character ≠ ':') (noLine : character ≠ '.') :
    character ∉ position numerals changedFile changedLine file line column := by
  have noNumber : ¬ (character = '-' ∨ character.isDigit = true) :=
    not_or.mpr ⟨noSign, Bool.eq_false_iff.mp noDigit⟩
  intro member
  rcases List.mem_append.mp member with inFile | inRest
  · exact not_or.mpr ⟨noFile, noNumber⟩ (letters_field isFile inFile)
  · rcases List.mem_append.mp inRest with inLine | inColumn
    · exact not_or.mpr ⟨noLine, noNumber⟩ (letters_field isLine inLine)
    · exact noNumber (numerals.letters isColumn inColumn)

theorem readPos_succ (isBegin : Bool) (fuel : ℕ) {text : List Char} (nonempty : text ≠ [])
    (state : SourceRef × ReadContext) :
    readPos isBegin (fuel + 1) text state = (stoi text).bind fun found =>
      match found.2 with
      | [] => .ok (state.1.column isBegin found.1, state.2)
      | character :: rest =>
          readPos isBegin fuel rest (mark isBegin character found.1 state) := by
  cases text with
  | nil => exact absurd rfl nonempty
  | cons first text => rfl

theorem readPos_column (isBegin : Bool) (fuel : ℕ) (isColumn : IsWord column)
    (readable : ¬ numerals.Lost column) (state : SourceRef × ReadContext) :
    readPos isBegin (fuel + 1) (numerals.write column) state =
      .ok (state.1.column isBegin column, state.2) := by
  have found := numerals.reads isColumn ends_nil
  rw [if_neg readable, List.append_nil] at found
  rw [readPos_succ isBegin fuel (numerals.nonempty isColumn), found]
  rfl

theorem readPos_field (isBegin : Bool) {fuel : ℕ} {changed : Prop} [Decidable changed]
    {value : ℤ} (isWord : IsWord value) (character : Char) (isMark : character.isDigit = false)
    {rest : List Char}
    (enough : (field numerals.write changed value character ++ rest).length ≤ fuel)
    (state : SourceRef × ReadContext) :
    ∃ fuelLeft, rest.length ≤ fuelLeft ∧
      readPos isBegin fuel (field numerals.write changed value character ++ rest) state =
        if changed ∧ numerals.Lost value then .error .invalidArgument
        else readPos isBegin fuelLeft rest (markIf changed isBegin character value state) := by
  by_cases isChanged : changed
  · have nonempty := numerals.nonempty isWord
    have positive := List.length_pos_iff.mpr nonempty
    rw [field, if_pos isChanged, List.append_assoc, List.singleton_append] at enough ⊢
    rw [List.length_append, List.length_cons] at enough
    obtain ⟨fuelLeft, rfl⟩ : ∃ fuelLeft, fuel = fuelLeft + 1 := ⟨fuel - 1, by omega⟩
    refine ⟨fuelLeft, by omega, ?_⟩
    rw [readPos_succ isBegin fuelLeft (fun isNil => nonempty (List.append_eq_nil_iff.mp isNil).1),
      numerals.reads isWord (ends_cons rest isMark), markIf, if_pos isChanged]
    by_cases isLost : numerals.Lost value
    · rw [if_pos isLost, if_pos ⟨isChanged, isLost⟩]
      rfl
    · rw [if_neg isLost, if_neg fun both => isLost both.2]
      rfl
  · refine ⟨fuel, ?_, ?_⟩
    · rwa [field, if_neg isChanged, List.nil_append] at enough
    · rw [field, if_neg isChanged, List.nil_append, markIf, if_neg isChanged,
        if_neg fun both => isChanged both.1]

theorem readPos_position (isBegin : Bool) (isFile : IsWord file) (isLine : IsWord line)
    (isColumn : IsWord column) (readable : ¬ numerals.Lost column) {fuel : ℕ}
    (enough : (position numerals changedFile changedLine file line column).length ≤ fuel)
    (state : SourceRef × ReadContext) :
    readPos isBegin fuel (position numerals changedFile changedLine file line column) state =
      if Unreadable numerals changedFile changedLine file line then .error .invalidArgument
      else
        let marked := markIf changedLine isBegin '.' line
          (markIf changedFile isBegin ':' file state)
        .ok (marked.1.column isBegin column, marked.2) := by
  obtain ⟨afterFile, enoughFile, fileRead⟩ := readPos_field isBegin isFile ':' rfl enough state
  obtain ⟨afterLine, enoughLine, lineRead⟩ := readPos_field isBegin isLine '.' rfl enoughFile
    (markIf changedFile isBegin ':' file state)
  have positive := List.length_pos_iff.mpr (numerals.nonempty isColumn)
  obtain ⟨fuelLeft, rfl⟩ : ∃ fuelLeft, afterLine = fuelLeft + 1 := ⟨afterLine - 1, by omega⟩
  rw [position, fileRead, lineRead, readPos_column isBegin fuelLeft isColumn readable]
  by_cases badFile : changedFile ∧ numerals.Lost file
  · have unreadable : Unreadable numerals changedFile changedLine file line := Or.inl badFile
    rw [if_pos badFile, if_pos unreadable]
  · rw [if_neg badFile]
    by_cases badLine : changedLine ∧ numerals.Lost line
    · have unreadable : Unreadable numerals changedFile changedLine file line := Or.inr badLine
      rw [if_pos badLine, if_pos unreadable]
    · have isReadable : ¬ Unreadable numerals changedFile changedLine file line :=
        not_or.mpr ⟨badFile, badLine⟩
      rw [if_neg badLine, if_neg isReadable]

end Position

def Src.startLine (fline : ℤ → FileLine) (src : Src) : FileLine :=
  fline (src.start / 2 ^ posBits)

def Src.stopLine (fline : ℤ → FileLine) (src : Src) : FileLine :=
  fline (src.stop / 2 ^ posBits)

/-- The range that the compiler means. -/
def Src.ref (fline : ℤ → FileLine) (src : Src) : SourceRef where
  beginSourceId := (src.startLine fline).file
  beginLine := (src.startLine fline).line
  beginColumn := column src.start
  endSourceId := (src.stopLine fline).file
  endLine := (src.stopLine fline).line
  endColumn := column src.stop

def Src.last (fline : ℤ → FileLine) (src : Src) : Last where
  file := (src.stopLine fline).file
  line := (src.stopLine fline).line

/-- One of the files of the range stands in the text. -/
def FileWritten (fline : ℤ → FileLine) (last : Last) (src : Src) : Prop :=
  last.file ≠ (src.startLine fline).file ∨ (src.startLine fline).file ≠ (src.stopLine fline).file

instance (fline : ℤ → FileLine) (last : Last) (src : Src) :
    Decidable (FileWritten fline last src) :=
  inferInstanceAs (Decidable (_ ∨ _))

/-- The range that the reader makes of the text.  Without a file in the text the end
keeps what the variable had in the place of its file. -/
def Src.decoded (fline : ℤ → FileLine) (last : Last) (src : Src) (uninitialized : SourceRef) :
    SourceRef :=
  if FileWritten fline last src then src.ref fline
  else { src.ref fline with endSourceId := uninitialized.endSourceId }

section Range

variable (numerals : Numerals) (fline : ℤ → FileLine) (last : Last) (src : Src)

def startText : List Char :=
  position numerals (last.file ≠ (src.startLine fline).file)
    (last.line ≠ (src.startLine fline).line) (src.startLine fline).file
    (src.startLine fline).line (column src.start)

def stopText : List Char :=
  position numerals ((src.startLine fline).file ≠ (src.stopLine fline).file)
    ((src.startLine fline).line ≠ (src.stopLine fline).line) (src.stopLine fline).file
    (src.stopLine fline).line (column src.stop)

/-- No number that the range is written with is lost. -/
def Readable : Prop :=
  ¬ Unreadable numerals (last.file ≠ (src.startLine fline).file)
      (last.line ≠ (src.startLine fline).line) (src.startLine fline).file
      (src.startLine fline).line ∧
    ¬ Unreadable numerals ((src.startLine fline).file ≠ (src.stopLine fline).file)
      ((src.startLine fline).line ≠ (src.stopLine fline).line) (src.stopLine fline).file
      (src.stopLine fline).line

instance : Decidable (Readable numerals fline last src) :=
  inferInstanceAs (Decidable (_ ∧ _))

theorem srcconv_eq :
    srcconv numerals.write fline last src =
      (startText numerals fline last src ++ ',' :: (stopText numerals fline src ++ [' ']),
        src.last fline) := by
  refine Prod.ext ?_ rfl
  unfold startText stopText position
  simp only [List.append_assoc]
  rfl

theorem column_nonneg (position : ℤ) : 0 ≤ column position :=
  Int.emod_nonneg position (by decide)

theorem isWord_column (position : ℤ) : IsWord (column position) := by
  have below : column position < 2 ^ posBits := Int.emod_lt_of_pos position (by decide)
  have above := column_nonneg position
  unfold posBits at below
  exact ⟨by omega, by omega⟩

theorem notMem_startText (character : Char) (noSign : character ≠ '-')
    (noDigit : character.isDigit = false) (noFile : character ≠ ':') (noLine : character ≠ '.') :
    character ∉ startText numerals fline last src :=
  notMem_position (src.startLine fline).isFile (src.startLine fline).isLine
    (isWord_column src.start) noSign noDigit noFile noLine

theorem notMem_stopText (character : Char) (noSign : character ≠ '-')
    (noDigit : character.isDigit = false) (noFile : character ≠ ':') (noLine : character ≠ '.') :
    character ∉ stopText numerals fline src :=
  notMem_position (src.stopLine fline).isFile (src.stopLine fline).isLine
    (isWord_column src.stop) noSign noDigit noFile noLine

theorem split_range :
    split [','] (startText numerals fline last src ++ ',' :: stopText numerals fline src) =
      [startText numerals fline last src, stopText numerals fline src] := by
  have comma : ∀ text : List Char, ',' ∉ text → ∀ character ∈ text, character ∉ [','] := by
    rintro text noComma character member isComma
    exact noComma (List.mem_singleton.mp isComma ▸ member)
  have start := comma _ (notMem_startText numerals fline last src ',' (by decide) rfl (by decide)
    (by decide))
  have stop := comma _ (notMem_stopText numerals fline src ',' (by decide) rfl (by decide)
    (by decide))
  rw [split, splitFrom_word start (position_ne_nil (isWord_column src.start))
    List.mem_cons_self, splitFrom_last stop (position_ne_nil (isWord_column src.stop))]

variable {numerals fline last src}

theorem readPos_startText (state : SourceRef × ReadContext) :
    readPos true (startText numerals fline last src).length
        (startText numerals fline last src) state =
      if Unreadable numerals (last.file ≠ (src.startLine fline).file)
        (last.line ≠ (src.startLine fline).line) (src.startLine fline).file
        (src.startLine fline).line then .error .invalidArgument
      else
        let marked := markIf (last.line ≠ (src.startLine fline).line) true '.'
          (src.startLine fline).line (markIf (last.file ≠ (src.startLine fline).file) true ':'
            (src.startLine fline).file state)
        .ok (marked.1.column true (column src.start), marked.2) :=
  readPos_position true (src.startLine fline).isFile (src.startLine fline).isLine
    (isWord_column src.start) (numerals.natural (column_nonneg src.start)) (Nat.le_refl _) state

theorem readPos_stopText (state : SourceRef × ReadContext) :
    readPos false (stopText numerals fline src).length (stopText numerals fline src) state =
      if Unreadable numerals ((src.startLine fline).file ≠ (src.stopLine fline).file)
        ((src.startLine fline).line ≠ (src.stopLine fline).line) (src.stopLine fline).file
        (src.stopLine fline).line then .error .invalidArgument
      else
        let marked := markIf ((src.startLine fline).line ≠ (src.stopLine fline).line) false '.'
          (src.stopLine fline).line
          (markIf ((src.startLine fline).file ≠ (src.stopLine fline).file) false ':'
            (src.stopLine fline).file state)
        .ok (marked.1.column false (column src.stop), marked.2) :=
  readPos_position false (src.stopLine fline).isFile (src.stopLine fline).isLine
    (isWord_column src.stop) (numerals.natural (column_nonneg src.stop)) (Nat.le_refl _) state

/-- The file of the end comes from the text, if it is there. -/
theorem decoded_file (uninitialized : ℤ) :
    (if (src.startLine fline).file ≠ (src.stopLine fline).file then (src.stopLine fline).file
      else if last.file ≠ (src.startLine fline).file then (src.startLine fline).file
      else uninitialized) =
        if FileWritten fline last src then (src.stopLine fline).file else uninitialized := by
  by_cases other : (src.startLine fline).file = (src.stopLine fline).file
  · rw [if_neg (not_not.mpr other)]
    refine if_congr ?_ other rfl
    exact (or_iff_left (not_not.mpr other)).symm
  · rw [if_pos other, if_pos (show FileWritten fline last src from Or.inr other)]

/-- The reader reads what it can, and its context follows the state of the compiler. -/
theorem readSrcEntry_range (uninitialized : SourceRef) {fc : ReadContext}
    (sameFile : fc.lastFile = last.file) (sameLine : fc.lastLine = last.line) :
    readSrcEntry uninitialized
        (startText numerals fline last src ++ ',' :: stopText numerals fline src) fc =
      if Readable numerals fline last src then
        .ok (src.decoded fline last uninitialized, { fc with
          lastFile := (src.last fline).file
          lastLine := (src.last fline).line })
      else .error .invalidArgument := by
  rw [readSrcEntry, split_range]
  dsimp only
  rw [readPos_startText]
  by_cases badStart : Unreadable numerals (last.file ≠ (src.startLine fline).file)
      (last.line ≠ (src.startLine fline).line) (src.startLine fline).file
      (src.startLine fline).line
  · rw [if_pos badStart, if_neg fun readable => readable.1 badStart]
    rfl
  · rw [if_neg badStart]
    show readPos false _ _ _ = _
    rw [readPos_stopText]
    by_cases badStop : Unreadable numerals ((src.startLine fline).file ≠ (src.stopLine fline).file)
        ((src.startLine fline).line ≠ (src.stopLine fline).line) (src.stopLine fline).file
        (src.stopLine fline).line
    · rw [if_pos badStop, if_neg fun readable => readable.2 badStop]
    · have readable : Readable numerals fline last src := ⟨badStart, badStop⟩
      rw [if_neg badStop, if_pos readable]
      obtain ⟨pcCount, lastFile, lastLine⟩ := fc
      obtain rfl : lastFile = last.file := sameFile
      obtain rfl : lastLine = last.line := sameLine
      refine congrArg Except.ok (Prod.ext ?_ ?_)
      · simp only [markIf_file, markIf_line, SourceRef.column, written_eq, if_true, and_true,
          Bool.false_eq_true, and_false, if_false]
        rw [Src.decoded, decoded_file]
        split
        · rfl
        · rfl
      · simp only [markIf_file, markIf_line, written_eq, Src.last]

end Range

/-- The ranges of the instructions by their `pc`. -/
def instSrcs : Src → List Inst → List Src
  | _, [] => []
  | previous, inst :: insts =>
      if inst.noop then instSrcs previous insts
      else instSrc previous inst.src :: instSrcs (instSrc previous inst.src) insts

/-- A condition on every range and the file and line before it. -/
def EveryRange (fline : ℤ → FileLine) (condition : Last → Src → Prop) :
    Last → List Src → Prop
  | _, [] => True
  | last, src :: srcs => condition last src ∧ EveryRange fline condition (src.last fline) srcs

instance decidableEveryRange (fline : ℤ → FileLine) (condition : Last → Src → Prop)
    [∀ last src, Decidable (condition last src)] :
    ∀ last srcs, Decidable (EveryRange fline condition last srcs)
  | _, [] => inferInstanceAs (Decidable True)
  | last, src :: srcs =>
      have := decidableEveryRange fline condition (src.last fline) srcs
      inferInstanceAs (Decidable (condition last src ∧ _))

/-- The ranges that the reader makes of a table. -/
def decodedRefs (fline : ℤ → FileLine) (uninitialized : ℕ → SourceRef) :
    ℕ → Last → List Src → List SourceRef
  | _, _, [] => []
  | pc, last, src :: srcs =>
      src.decoded fline last (uninitialized pc) ::
        decodedRefs fline uninitialized (pc + 1) (src.last fline) srcs

variable {fline : ℤ → FileLine}

theorem length_instSrcs (previous : Src) (insts : List Inst) :
    (instSrcs previous insts).length = resolvepcs insts := by
  unfold resolvepcs
  induction insts generalizing previous with
  | nil => rfl
  | cons inst insts ih =>
      rw [instSrcs]
      cases isNoop : inst.noop with
      | true => rw [if_pos rfl, ih, List.filter_cons_of_neg (by rw [isNoop]; decide)]
      | false =>
          rw [if_neg Bool.false_ne_true, List.length_cons, ih,
            List.filter_cons_of_pos (by rw [isNoop]; decide), List.length_cons]

/-- The numbers of blocks are those that have been handed out. -/
def Sblinst.Numbered (state : Sblinst) : Prop :=
  0 ≤ state.blockid ∧ ∀ block, state.sblblocks block < state.blockid

theorem Sblinst.block_spec {state : Sblinst} (numbered : state.Numbered) (block : ℕ) :
    0 ≤ (state.block block).1 ∧ (state.block block).1 < (state.block block).2.blockid ∧
      (state.block block).2.blockid ≤ state.blockid + 1 ∧ (state.block block).2.Numbered ∧
      (state.block block).2.last = state.last ∧ (state.block block).2.src = state.src := by
  obtain ⟨positive, below⟩ := numbered
  unfold Sblinst.block
  dsimp only
  split
  · refine ⟨positive, Int.lt_add_one_of_le (Int.le_refl _), Int.le_refl _, ⟨?_, ?_⟩, rfl, rfl⟩
    · exact Int.le_add_one positive
    · intro other
      dsimp only
      split
      · exact Int.lt_add_one_of_le (Int.le_refl _)
      · exact Int.lt_add_one_of_le (Int.le_of_lt (below other))
  · refine ⟨by omega, below block, ?_, ⟨positive, below⟩, rfl, rfl⟩
    exact Int.le_add_one (Int.le_refl _)

theorem split_item (last : Last) (src : Src) {block : ℤ} (isWord : IsWord block) :
    split [' '] (startText sblintNumerals fline last src ++
        ',' :: (stopText sblintNumerals fline src ++ ' ' :: sblint block)) =
      [startText sblintNumerals fline last src ++ ',' :: stopText sblintNumerals fline src,
        sblint block] := by
  have isRange : ∀ character ∈ startText sblintNumerals fline last src ++
      ',' :: stopText sblintNumerals fline src, character ∉ [' '] := by
    rintro character member isBlank
    rw [List.mem_singleton.mp isBlank] at member
    rcases List.mem_append.mp member with inStart | inRest
    · exact notMem_startText _ _ _ _ ' ' (by decide) rfl (by decide) (by decide) inStart
    · rcases List.mem_cons.mp inRest with isComma | inStop
      · cases isComma
      · exact notMem_stopText _ _ _ ' ' (by decide) rfl (by decide) (by decide) inStop
  have isNumber : ∀ character ∈ sblint block, character ∉ [' '] := by
    rintro character member isBlank
    rw [List.mem_singleton.mp isBlank] at member
    rcases sblintNumerals.letters isWord member with isSign | isDigit
    · cases isSign
    · cases isDigit
  have parts := splitFrom_word isRange (fun isNil => by cases List.append_eq_nil_iff.mp isNil with
    | intro _ rest => cases rest) List.mem_cons_self (sblint block)
  rw [List.append_assoc, List.cons_append] at parts
  rw [split, parts, splitFrom_last isNumber (sblintNumerals.nonempty isWord)]

theorem notMem_item (last : Last) (src : Src) {block : ℤ} (isWord : IsWord block) :
    '\n' ∉ startText sblintNumerals fline last src ++
      ',' :: (stopText sblintNumerals fline src ++ ' ' :: sblint block) := by
  intro member
  rcases List.mem_append.mp member with inStart | inRest
  · exact notMem_startText _ _ _ _ '\n' (by decide) rfl (by decide) (by decide) inStart
  · rcases List.mem_append.mp (List.mem_of_ne_of_mem (by decide) inRest) with inStop | inBlock
    · exact notMem_stopText _ _ _ '\n' (by decide) rfl (by decide) (by decide) inStop
    · rcases sblintNumerals.letters isWord (List.mem_of_ne_of_mem (by decide) inBlock) with
        isSign | isDigit
      · cases isSign
      · cases isDigit

/-- One line of the table. -/
theorem readPcItems_succ (fline : ℤ → FileLine) (uninitialized : ℕ → SourceRef)
    (pc count : ℕ) {last : Last} (src : Src) {block : ℤ} (isWord : IsWord block)
    (isNatural : 0 ≤ block) {fc : ReadContext}
    (sameFile : fc.lastFile = last.file) (sameLine : fc.lastLine = last.line)
    (text : List Char) :
    readPcItems uninitialized pc (count + 1)
        ((sblsrcconvb fline last src).1 ++ (sblint block ++ '\n' :: text)) fc =
      if Readable sblintNumerals fline last src then do
        let (items, fc, text) ← readPcItems uninitialized (pc + 1) count text { fc with
          lastFile := (src.last fline).file
          lastLine := (src.last fline).line }
        return ({ source := src.decoded fline last (uninitialized pc), debugStatement := block } ::
          items, fc, text)
      else .error .invalidArgument := by
  have line : (sblsrcconvb fline last src).1 ++ (sblint block ++ '\n' :: text) =
      (startText sblintNumerals fline last src ++
        ',' :: (stopText sblintNumerals fline src ++ ' ' :: sblint block)) ++ '\n' :: text := by
    rw [show sblsrcconvb fline last src = srcconv sblintNumerals.write fline last src from rfl,
      srcconv_eq]
    simp only [List.append_assoc, List.cons_append, List.nil_append]
  have statement := sblintNumerals.reads isWord ends_nil
  rw [if_neg (sblintNumerals.natural isNatural), List.append_nil] at statement
  rw [line, readPcItems, readUntil_append (notMem_item last src isWord)]
  dsimp only
  rw [split_item last src isWord]
  dsimp only
  rw [readSrcEntry_range (uninitialized pc) sameFile sameLine]
  by_cases readable : Readable sblintNumerals fline last src
  · rw [if_pos readable, if_pos readable]
    show (stoi (sblintNumerals.write block)).bind _ = _
    rw [statement]
    rfl
  · rw [if_neg readable, if_neg readable]
    rfl

/-- The reader reads the lines of all instructions if no number is lost, and else none
of them. -/
theorem readPcItems_lines (uninitialized : ℕ → SourceRef) {state : Sblinst} {insts : List Inst}
    {lines : List Char} (written : sblinstLines fline state insts = some lines)
    (numbered : state.Numbered) (fits : state.blockid + resolvepcs insts ≤ 2 ^ 31)
    (pc : ℕ) {fc : ReadContext} (sameFile : fc.lastFile = state.last.file)
    (sameLine : fc.lastLine = state.last.line) (text : List Char) :
    (EveryRange fline (Readable sblintNumerals fline) state.last (instSrcs state.src insts) →
      ∃ items after, readPcItems uninitialized pc (resolvepcs insts) (lines ++ text) fc =
          .ok (items, after, text) ∧
        items.map PcItem.source =
          decodedRefs fline uninitialized pc state.last (instSrcs state.src insts)) ∧
    (¬ EveryRange fline (Readable sblintNumerals fline) state.last (instSrcs state.src insts) →
      ∃ error, readPcItems uninitialized pc (resolvepcs insts) (lines ++ text) fc =
        .error error) := by
  rw [← length_instSrcs state.src insts] at fits ⊢
  induction insts generalizing state lines pc fc with
  | nil =>
      cases written
      exact ⟨fun _ => ⟨[], fc, rfl, rfl⟩, fun broken => absurd trivial broken⟩
  | cons inst insts ih =>
      rw [sblinstLines] at written
      cases isNoop : inst.noop with
      | true =>
          rw [if_pos isNoop] at written
          rw [instSrcs, if_pos isNoop] at fits ⊢
          exact ih written numbered fits pc sameFile sameLine
      | false =>
          have isWritten : ¬ inst.noop = true := Bool.eq_false_iff.mp isNoop
          rw [if_neg isWritten] at written
          rw [instSrcs, if_neg isWritten] at fits ⊢
          split at written
          · cases written
          · generalize isSrc : instSrc state.src inst.src = src at written fits ⊢
            let next : Sblinst := { state with last := src.last fline, src }
            obtain ⟨natural, below, most, numberedNext, sameLast, sameSrc⟩ :=
              @Sblinst.block_spec next numbered inst.block
            change ((sblinstLines fline (next.block inst.block).2 insts).bind fun later =>
              some ((sblsrcconvb fline state.last src).1 ++
                (sblint (next.block inst.block).1 ++ '\n' :: later))) = some lines at written
            obtain ⟨later, laterWritten, isLines⟩ := Option.bind_eq_some_iff.mp written
            cases isLines
            rw [List.length_cons] at fits ⊢
            change (next.block inst.block).2.blockid ≤ state.blockid + 1 at most
            have isWord : IsWord (next.block inst.block).1 := ⟨by omega, by omega⟩
            have shorter : (next.block inst.block).2.blockid +
                (instSrcs (next.block inst.block).2.src insts).length ≤ 2 ^ 31 := by
              rw [sameSrc]
              change _ + ((instSrcs src insts).length : ℤ) ≤ _
              omega
            let context : ReadContext := { fc with
              lastFile := (src.last fline).file
              lastLine := (src.last fline).line }
            have rest := @ih (next.block inst.block).2 later laterWritten numberedNext shorter
              (pc + 1) context (congrArg Last.file sameLast.symm) (congrArg Last.line sameLast.symm)
            rw [sameSrc, sameLast] at rest
            have line := readPcItems_succ fline uninitialized pc (instSrcs src insts).length src
              isWord natural sameFile sameLine (later ++ text)
            rw [List.append_assoc, List.append_assoc, List.cons_append, line]
            by_cases readable : Readable sblintNumerals fline state.last src
            · rw [if_pos readable]
              constructor
              · rintro ⟨-, laterReadable⟩
                obtain ⟨items, after, isRead, sources⟩ := rest.1 laterReadable
                refine ⟨{ source := src.decoded fline state.last (uninitialized pc)
                          debugStatement := (next.block inst.block).1 } :: items, after, ?_, ?_⟩
                · show (readPcItems _ _ _ _ context).bind _ = _
                  rw [isRead]
                  rfl
                · rw [List.map_cons, sources]
                  rfl
              · intro broken
                obtain ⟨error, isRead⟩ := rest.2 fun laterReadable =>
                  broken ⟨readable, laterReadable⟩
                refine ⟨error, ?_⟩
                show (readPcItems _ _ _ _ context).bind _ = _
                rw [isRead]
                rfl
            · rw [if_neg readable]
              exact ⟨fun every => absurd every.1 readable, fun _ => ⟨_, rfl⟩⟩

theorem everyRange_and (first second : Last → Src → Prop) (last : Last) (srcs : List Src) :
    EveryRange fline (fun last src => first last src ∧ second last src) last srcs ↔
      EveryRange fline first last srcs ∧ EveryRange fline second last srcs := by
  induction srcs generalizing last with
  | nil => exact (and_self_iff).symm
  | cons src srcs ih =>
      simp only [EveryRange, ih]
      exact and_and_and_comm

theorem decodedRefs_of_written (uninitialized : ℕ → SourceRef) (pc : ℕ) {last : Last}
    {srcs : List Src} (written : EveryRange fline (FileWritten fline) last srcs) :
    decodedRefs fline uninitialized pc last srcs = srcs.map (Src.ref fline) := by
  induction srcs generalizing pc last with
  | nil => rfl
  | cons src srcs ih =>
      obtain ⟨isWritten, later⟩ := written
      rw [decodedRefs, Src.decoded, if_pos isWritten, ih (pc + 1) later, List.map_cons]

/-- A file that is not in the text is not found by what is in the variable. -/
theorem written_of_decodedRefs {uninitialized : ℕ → SourceRef} {pc : ℕ} {last : Last}
    {srcs : List Src} (others : ∀ index src, srcs[index]? = some src →
      (uninitialized (pc + index)).endSourceId ≠ (src.stopLine fline).file)
    (same : decodedRefs fline uninitialized pc last srcs = srcs.map (Src.ref fline)) :
    EveryRange fline (FileWritten fline) last srcs := by
  induction srcs generalizing pc last with
  | nil => trivial
  | cons src srcs ih =>
      obtain ⟨here, later⟩ := List.cons_eq_cons.mp same
      refine ⟨?_, ih (fun index other isOther => ?_) later⟩
      · by_contra notWritten
        rw [Src.decoded, if_neg notWritten] at here
        exact others 0 src rfl (congrArg SourceRef.endSourceId here)
      · have isElsewhere := others (index + 1) other isOther
        rwa [Nat.add_comm index, ← Nat.add_assoc] at isElsewhere

theorem readPcTable_decimal (uninitialized : ℕ → SourceRef) {count : ℕ} (fits : count < 2 ^ 31)
    (text : List Char) (fc : ReadContext) :
    readPcTable uninitialized (decimal count ++ '\n' :: text) fc =
      (readPcItems uninitialized 0 count text fc).map fun table =>
        (table.1, { table.2.1 with pcCount := count }, table.2.2) := by
  have noNewline : '\n' ∉ decimal count := notMem_decimal (by decide) rfl
  have isWord : IsWord count := ⟨by omega, by omega⟩
  have isCount := stoi_decimal isWord ends_nil
  rw [List.append_nil] at isCount
  rw [readPcTable, readUntil_append noNewline]
  dsimp only
  rw [isCount]
  dsimp only [bind, Except.bind]
  rw [if_neg (by omega), Int.toNat_natCast]
  cases readPcItems uninitialized 0 count text fc with
  | ok table => rfl
  | error error => rfl

variable {previous : Src} {insts : List Inst} {text : List Char}

theorem readPcTable_text (uninitialized : ℕ → SourceRef)
    (written : sblinst fline previous insts (resolvepcs insts) = some text)
    (fits : resolvepcs insts < 2 ^ 31) (rest : List Char) :
    (EveryRange fline (Readable sblintNumerals fline) ⟨0, 0⟩ (instSrcs previous insts) →
      ∃ table after, readPcTable uninitialized (text ++ rest) ⟨0, 0, 0⟩ =
          .ok (table, after, rest) ∧
        table.map PcItem.source =
          decodedRefs fline uninitialized 0 ⟨0, 0⟩ (instSrcs previous insts)) ∧
    (¬ EveryRange fline (Readable sblintNumerals fline) ⟨0, 0⟩ (instSrcs previous insts) →
      ∃ error, readPcTable uninitialized (text ++ rest) ⟨0, 0, 0⟩ = .error error) := by
  obtain ⟨lines, isLines, rfl⟩ := Option.map_eq_some_iff.mp written
  have numbered : Sblinst.Numbered
      { last := ⟨0, 0⟩, src := previous, sblblocks := fun _ => -1, blockid := 0 } :=
    ⟨Int.le_refl 0, fun _ => Int.negSucc_lt_zero 0⟩
  have read := @readPcItems_lines _ uninitialized _ _ _ isLines numbered (by dsimp only; omega) 0
    ⟨0, 0, 0⟩ rfl rfl rest
  rw [List.append_assoc, List.cons_append, readPcTable_decimal uninitialized fits]
  constructor
  · intro readable
    obtain ⟨items, after, isRead, sources⟩ := read.1 readable
    refine ⟨items, { after with pcCount := resolvepcs insts }, ?_, sources⟩
    rw [isRead]
    rfl
  · intro broken
    obtain ⟨error, isRead⟩ := read.2 broken
    refine ⟨error, ?_⟩
    rw [isRead]
    rfl

/-- The table of a program is read with the ranges of all its instructions, whatever is
in the variable before, exactly when every range has a file in its text and no number
is lost. -/
theorem pcTable_decodes_iff (written : sblinst fline previous insts (resolvepcs insts) = some text)
    (fits : resolvepcs insts < 2 ^ 31) (rest : List Char) :
    (∀ uninitialized, ∃ table after,
      readPcTable uninitialized (text ++ rest) ⟨0, 0, 0⟩ = .ok (table, after, rest) ∧
        table.map PcItem.source = (instSrcs previous insts).map (Src.ref fline)) ↔
      EveryRange fline
        (fun last src => FileWritten fline last src ∧ Readable sblintNumerals fline last src)
        ⟨0, 0⟩ (instSrcs previous insts) := by
  rw [everyRange_and]
  constructor
  · intro decodes
    let wrong : ℕ → SourceRef := fun pc =>
      ⟨0, 0, 0, ((instSrcs previous insts)[pc]?.map fun src =>
        (src.stopLine fline).file + 1).getD 0, 0, 0⟩
    have read := readPcTable_text wrong written fits rest
    obtain ⟨table, after, isRead, sources⟩ := decodes wrong
    have readable : EveryRange fline (Readable sblintNumerals fline) ⟨0, 0⟩
        (instSrcs previous insts) := by
      by_contra broken
      obtain ⟨error, failed⟩ := read.2 broken
      rw [isRead] at failed
      cases failed
    refine ⟨?_, readable⟩
    obtain ⟨same, sameAfter, isSame, decoded⟩ := read.1 readable
    rw [isRead] at isSame
    cases isSame
    refine written_of_decodedRefs (fun index src isSrc => ?_) (decoded.symm.trans sources)
    rw [Nat.zero_add]
    show ((instSrcs previous insts)[index]?.map _).getD 0 ≠ _
    rw [isSrc]
    exact (Int.lt_succ _).ne'
  · rintro ⟨isWritten, readable⟩ uninitialized
    obtain ⟨table, after, isRead, decoded⟩ :=
      (readPcTable_text uninitialized written fits rest).1 readable
    refine ⟨table, after, isRead, ?_⟩
    calc table.map PcItem.source
      _ = decodedRefs fline uninitialized 0 ⟨0, 0⟩ (instSrcs previous insts) := decoded
      _ = (instSrcs previous insts).map (Src.ref fline) :=
        decodedRefs_of_written uninitialized 0 isWritten

/-- A line in the beginning of one of the first files. -/
def FileLine.ofBytes (file line : BitVec 8) : FileLine where
  file := file.toNat
  line := line.toNat
  isFile := by
    unfold IsWord
    omega
  isLine := by
    unfold IsWord
    omega

/-- Lines of two files that are put together, two of the second file and one of the first. -/
def fileLines (line : ℤ) : FileLine :=
  if line = 1 then .ofBytes 1 3 else if line = 2 then .ofBytes 1 4 else .ofBytes 0 4

/-- Ranges of one line and of two files, one that is not written and one without a source,
in two blocks. -/
def rangedInsts : List Inst :=
  [{ noop := false, src := { start := 1025, stop := 1027 }, block := 5 },
    { noop := true, src := { start := 3073, stop := 3074 }, block := 5 },
    { noop := false, src := { start := 2049, stop := 3075 }, block := 2 },
    { noop := false, src := { start := 0, stop := 0 }, block := 2 },
    { noop := false, src := { start := 2052, stop := 0 }, block := 5 }]

/-- Files and lines are left out where they have not changed. -/
theorem pcTable_decodes_twoFiles :
    let text := "4\n1:3.1,3 0\n4.1,0:3 1\n1:1,0:3 1\n1:4,5 0\n".toList
    ∀ uninitialized, ∃ table after,
      readPcTable uninitialized (text ++ []) ⟨0, 0, 0⟩ = .ok (table, after, []) ∧
        table.map PcItem.source = (instSrcs ⟨0, 0⟩ rangedInsts).map (Src.ref fileLines) := by
  intro text
  have written : sblinst fileLines ⟨0, 0⟩ rangedInsts (resolvepcs rangedInsts) = some text := by
    decide
  exact (pcTable_decodes_iff written (by decide) []).mpr (by decide)

/-- The end of an instruction in the first file gets what the variable had in the place
of its file. -/
theorem endFile_lost :
    let fline : ℤ → FileLine := fun _ => ⟨0, 3, by decide, by decide⟩
    let insts : List Inst := [{ noop := false, src := { start := 3073, stop := 3075 }, block := 0 }]
    let text := ['1', '\n', '3', '.', '1', ',', '3', ' ', '0', '\n']
    sblinst fline ⟨0, 0⟩ insts (resolvepcs insts) = some text ∧
      ¬ ∀ uninitialized, ∃ table after,
        readPcTable uninitialized text ⟨0, 0, 0⟩ = .ok (table, after, []) ∧
          table.map PcItem.source = (instSrcs ⟨0, 0⟩ insts).map (Src.ref fline) := by
  intro fline insts text
  refine ⟨by decide, fun decodes => ?_⟩
  obtain ⟨table, after, isRead, sources⟩ := decodes fun _ => ⟨0, 0, 0, 7, 0, 0⟩
  have found : readPcTable (fun _ => ⟨0, 0, 0, 7, 0, 0⟩) text ⟨0, 0, 0⟩ =
      .ok ([{ source := ⟨0, 3, 1, 7, 3, 3⟩, debugStatement := 0 }], ⟨1, 0, 3⟩, []) := rfl
  rw [found] at isRead
  cases isRead
  exact absurd sources (by decide)

end Disvm.SymbolFile
