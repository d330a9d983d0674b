import Disvm.SymbolTrees

/-!
# Lines of types in symbol files

What the reader makes of the text of each class of types, up to the declarations in it,
of the line of a declaration and of the line of a tag.
-/

namespace Disvm.SymbolFile

open DecimalText

/-- No number is lost in a string. -/
def decimalNumerals : Numerals where
  write := decimal
  Lost _ := False
  isDecidable _ := inferInstanceAs (Decidable False)
  reads isWord _ ends := (stoi_decimal isWord ends).trans (if_neg not_false).symm
  natural _ isLost := isLost
  nonempty _ := decimal_ne_nil _
  letters _ _ member := mem_decimal member

/-- The context of the reader is the state of the writer. -/
structure ReadContext.Follows (fc : ReadContext) (last : Last) : Prop where
  file : fc.lastFile = last.file
  line : fc.lastLine = last.line

section Ranges

variable (fline : ℤ → FileLine) (last : Last) (src : Src)

/-- A range without the blank behind it. -/
def rangeText : List Char :=
  startText decimalNumerals fline last src ++ ',' :: stopText decimalNumerals fline src

theorem sblsrcconv_eq :
    sblsrcconv fline last src = (rangeText fline last src ++ [' '], src.last fline) := by
  have written := srcconv_eq decimalNumerals fline last src
  rw [show sblsrcconv fline last src = srcconv decimalNumerals.write fline last src from rfl,
    written, rangeText, List.append_assoc, List.cons_append]

theorem rangeText_ne_nil : rangeText fline last src ≠ [] := by
  intro isNil
  cases (List.append_eq_nil_iff.mp isNil).2

theorem notMem_rangeText {character : Char} (noSign : character ≠ '-')
    (noDigit : character.isDigit = false) (noFile : character ≠ ':') (noLine : character ≠ '.')
    (noComma : character ≠ ',') : character ∉ rangeText fline last src := by
  intro member
  rcases List.mem_append.mp member with inStart | inStop
  · exact notMem_startText decimalNumerals fline last src character noSign noDigit noFile noLine
      inStart
  · exact notMem_stopText decimalNumerals fline src character noSign noDigit noFile noLine
      (List.mem_of_ne_of_mem noComma inStop)

variable {fline last src}

theorem not_lost (value : ℤ) : ¬ decimalNumerals.Lost value :=
  not_false

theorem not_unreadable (changedFile changedLine : Prop) (file line : ℤ) :
    ¬ Unreadable decimalNumerals changedFile changedLine file line :=
  fun lost => lost.elim And.right And.right

theorem readSrcEntry_rangeText (uninitialized : SourceRef) {fc : ReadContext}
    (follows : fc.Follows last) :
    ∃ after, readSrcEntry uninitialized (rangeText fline last src) fc =
      .ok (src.decoded fline last uninitialized, after) ∧ after.Follows (src.last fline) := by
  have readable : Readable decimalNumerals fline last src :=
    ⟨not_unreadable _ _ _ _, not_unreadable _ _ _ _⟩
  have found := @readSrcEntry_range decimalNumerals fline last src uninitialized fc follows.file
    follows.line
  rw [if_pos readable] at found
  exact ⟨_, found, ⟨rfl, rfl⟩⟩

theorem readPos_count {changedFile changedLine : Prop} [Decidable changedFile]
    [Decidable changedLine] {file line column : ℤ} (isFile : IsWord file) (isLine : IsWord line)
    (isColumn : IsWord column) {count : ℤ} (isCount : IsWord count) {fuel : ℕ}
    (enough : (position decimalNumerals changedFile changedLine file line column ++
      ' ' :: decimal count).length ≤ fuel) (state : SourceRef × ReadContext) :
    readPos false fuel (position decimalNumerals changedFile changedLine file line column ++
        ' ' :: decimal count) state =
      let marked := markIf changedLine false '.' line (markIf changedFile false ':' file state)
      .ok (marked.1.column false count, marked.2) := by
  rw [position, List.append_assoc, List.append_assoc] at enough ⊢
  obtain ⟨afterFile, enoughFile, fileRead⟩ := readPos_field false isFile ':' rfl enough state
  obtain ⟨afterLine, enoughLine, lineRead⟩ := readPos_field false isLine '.' rfl enoughFile
    (markIf changedFile false ':' file state)
  rw [List.length_append, List.length_cons] at enoughLine
  have isNumber := decimalNumerals.nonempty isColumn
  have positive := List.length_pos_iff.mpr isNumber
  have countPositive := List.length_pos_iff.mpr (decimal_ne_nil count)
  obtain ⟨fuelLeft, rfl⟩ : ∃ fuelLeft, afterLine = fuelLeft + 2 := ⟨afterLine - 2, by omega⟩
  rw [fileRead, if_neg fun both => both.2, lineRead, if_neg fun both => both.2,
    readPos_succ false (fuelLeft + 1) fun isNil => isNumber (List.append_eq_nil_iff.mp isNil).1,
    decimalNumerals.reads isColumn (ends_cons _ rfl), if_neg (not_lost column)]
  exact @readPos_column decimalNumerals count false fuelLeft isCount (not_lost count) _

/-- The number of declarations behind the range of a module is read as its last column. -/
theorem readSrcEntry_count (uninitialized : SourceRef) {count : ℤ} (isCount : IsWord count)
    (fc : ReadContext) :
    readSrcEntry uninitialized (rangeText fline last src ++ ' ' :: decimal count) fc =
      (readSrcEntry uninitialized (rangeText fline last src) fc).map fun found =>
        (found.1.column false count, found.2) := by
  have parts : split [','] (rangeText fline last src ++ ' ' :: decimal count) =
      [startText decimalNumerals fline last src,
        stopText decimalNumerals fline src ++ ' ' :: decimal count] := by
    have noComma : ∀ text : List Char, ',' ∉ text → ∀ character ∈ text, character ∉ [','] := by
      rintro text notMem character member isComma
      exact notMem (List.mem_singleton.mp isComma ▸ member)
    have start := noComma _ (notMem_startText decimalNumerals fline last src ',' (by decide) rfl
      (by decide) (by decide))
    have stop : ',' ∉ stopText decimalNumerals fline src ++ ' ' :: decimal count := by
      intro member
      rcases List.mem_append.mp member with inStop | inCount
      · exact notMem_stopText decimalNumerals fline src ',' (by decide) rfl (by decide)
          (by decide) inStop
      · exact notMem_decimal (by decide) rfl (List.mem_of_ne_of_mem (by decide) inCount)
    rw [rangeText, List.append_assoc, List.cons_append, split,
      splitFrom_word start (position_ne_nil (isWord_column src.start)) List.mem_cons_self,
      splitFrom_last (noComma _ stop) fun isNil =>
        position_ne_nil (isWord_column src.stop) (List.append_eq_nil_iff.mp isNil).1]
  rw [readSrcEntry, parts, readSrcEntry, rangeText, split_range]
  dsimp only
  cases readPos true (startText decimalNumerals fline last src).length
      (startText decimalNumerals fline last src) _ with
  | error error => rfl
  | ok state =>
      show readPos false _ _ state = (readPos false _ _ state).map _
      rw [readPos_stopText, if_neg (not_unreadable _ _ _ _)]
      exact readPos_count (src.stopLine fline).isFile (src.stopLine fline).isLine
        (isWord_column src.stop) isCount (Nat.le_refl _) state

end Ranges

section Lines

theorem Name.notMem (name : Name) {character : Char} (isMark : character ∈ [' ', ':', '\n']) :
    character ∉ name.text :=
  fun member => name.plain character member isMark

theorem getAsStringUntil_append {delimiter : Char} {part : List Char} (isPart : delimiter ∉ part)
    (text : List Char) (tt : TypeTable) (fc : ReadContext) :
    Reader.getAsStringUntil ⟨part ++ delimiter :: text, tt, fc⟩ delimiter =
      (part, ⟨text, tt, fc⟩) := by
  rw [Reader.getAsStringUntil]
  dsimp only
  rw [readUntil_append isPart]

theorem stoi_number {value : ℤ} (isWord : IsWord value) :
    stoi (decimal value) = .ok (value, []) := by
  have found := stoi_decimal isWord ends_nil
  rwa [List.append_nil] at found

theorem isWord_natCast {count : ℕ} (fits : count < 2 ^ 31) : IsWord count :=
  ⟨by omega, by omega⟩

theorem stoul_decimal (value : Word) :
    stoul (decimal value) = .ok (value.val % 2 ^ 32).toNat := by
  have found := readInt_decimal value ends_nil
  have skipped := dropWhile_isSpace_decimal value []
  rw [List.append_nil] at found skipped
  obtain ⟨above, below⟩ := value.property
  rw [stoul, skipped, found]
  exact if_pos (by omega)

variable (uninitialized : SourceRef) (readTy : TypeReader)

theorem readIdTable_decimal {count : ℕ} (fits : count < 2 ^ 31) (text : List Char)
    (tt : TypeTable) (fc : ReadContext) :
    readIdTable uninitialized readTy ⟨decimal count ++ '\n' :: text, tt, fc⟩ =
      readIds uninitialized readTy count ⟨text, tt, fc⟩ := by
  rw [readIdTable, getAsStringUntil_append (notMem_decimal (by decide) rfl)]
  dsimp only
  rw [stoi_number (isWord_natCast fits)]
  dsimp only [bind, Except.bind]
  rw [if_neg (by omega), Int.toNat_natCast]

theorem readTagTable_decimal {count : ℕ} (fits : count < 2 ^ 31) (text : List Char)
    (tt : TypeTable) (fc : ReadContext) :
    readTagTable uninitialized readTy ⟨decimal count ++ '\n' :: text, tt, fc⟩ =
      readTags uninitialized readTy count ⟨text, tt, fc⟩ := by
  rw [readTagTable, getAsStringUntil_append (notMem_decimal (by decide) rfl)]
  dsimp only
  rw [stoi_number (isWord_natCast fits)]
  dsimp only [bind, Except.bind]
  rw [Int.toNat_natCast]

variable {fline : ℤ → FileLine} {last : Last} {fc : ReadContext}

/-- What comes behind the type of a declaration. -/
def readIdsBehind (count : ℕ) (offset : Word) (name : Name) (source : SourceRef)
    (found : TypeT × Reader) : Except ReadError (List IdItem × Reader) :=
  found.2.getNewline.bind fun r => (readIds uninitialized readTy count r).map fun later =>
    ({ offset := (offset.val % 2 ^ 32).toNat, name := name.text, source, type := found.1 } ::
      later.1, later.2)

theorem getNewline_of_ne {r : Reader} {character : Char} {text : List Char}
    (isText : r.text = character :: text) (noNewline : character ≠ '\n') :
    r.getNewline = .error (.runtime "Invalid ID table item") := by
  rw [Reader.getNewline, isText]
  split
  · rename_i isNewline
    exact absurd (List.cons_eq_cons.mp isNewline).1 noNewline
  · rfl

theorem readIds_succ (follows : fc.Follows last) (src : Src) :
    ∃ after, after.Follows (src.last fline) ∧ ∀ count (offset : Word) (name : Name) text tt,
      readIds uninitialized readTy (count + 1)
          ⟨decimal offset ++ ':' :: (name.text ++
            ':' :: (rangeText fline last src ++ ' ' :: text)), tt, fc⟩ =
        (readTy ⟨text, tt, after⟩).bind
          (readIdsBehind uninitialized readTy count offset name
            (src.decoded fline last uninitialized)) := by
  obtain ⟨after, isSource, afterFollows⟩ := readSrcEntry_rangeText uninitialized follows
  refine ⟨after, afterFollows, fun count offset name text tt => ?_⟩
  have noBlank : ' ' ∉ rangeText fline last src :=
    notMem_rangeText fline last src (by decide) rfl (by decide) (by decide) (by decide)
  rw [readIds, getAsStringUntil_append (notMem_decimal (by decide) rfl)]
  dsimp only
  rw [if_neg (decimal_ne_nil _), getAsStringUntil_append (name.notMem (by decide))]
  dsimp only
  rw [if_neg name.nonempty, getAsStringUntil_append noBlank]
  dsimp only
  rw [if_neg (rangeText_ne_nil fline last src), stoul_decimal, isSource]
  show (readTy ⟨text, tt, after⟩).bind _ = _
  cases readTy ⟨text, tt, after⟩ with
  | error error => rfl
  | ok found =>
      show found.2.getNewline.bind _ = found.2.getNewline.bind _
      cases found.2.getNewline with
      | error error => rfl
      | ok r =>
          show (readIds uninitialized readTy count r).bind _ = (readIds _ _ count r).map _
          cases readIds uninitialized readTy count r <;> rfl

theorem noDelimiter_of_notMem {word delimiters : List Char}
    (notMem : ∀ delimiter ∈ delimiters, delimiter ∉ word) :
    ∀ character ∈ word, character ∉ delimiters :=
  fun character member isDelimiter => notMem character isDelimiter member

theorem rangeText_noBlank (fline : ℤ → FileLine) (last : Last) (src : Src) :
    ∀ character ∈ rangeText fline last src, character ∉ [' '] := by
  apply noDelimiter_of_notMem
  intro delimiter isBlank
  rw [List.mem_singleton.mp isBlank]
  exact notMem_rangeText fline last src (by decide) rfl (by decide) (by decide) (by decide)

/-- The declarations of an ADT or of a tag, with what has been read before them. -/
def withIds (name : Name) (source : SourceRef) (size : Word)
    (found : List IdItem × Reader) : NameSourceSize × Reader :=
  ({ name := name.text, source, sizeInBytes := some size.val, idTable := found.1 }, found.2)

theorem createNameSourceSize_size (follows : fc.Follows last) (src : Src) :
    ∃ after, after.Follows (src.last fline) ∧
      ∀ {count : ℕ}, count < 2 ^ 31 → ∀ (name : Name) (size : Word) text tt,
        createNameSourceSize uninitialized readTy name.text (rangeText fline last src)
            (some (decimal size)) ⟨decimal count ++ '\n' :: text, tt, fc⟩ =
          (readIds uninitialized readTy count ⟨text, tt, after⟩).map
            (withIds name (src.decoded fline last uninitialized) size) := by
  obtain ⟨after, isSource, afterFollows⟩ := readSrcEntry_rangeText uninitialized follows
  refine ⟨after, afterFollows, fun fits name size text tt => ?_⟩
  rw [createNameSourceSize, isSource]
  dsimp only [bind, Except.bind]
  rw [stoi_number size.property]
  dsimp only
  rw [readIdTable_decimal uninitialized readTy fits]
  cases readIds uninitialized readTy _ ⟨text, tt, after⟩ <;> rfl

theorem readAdt_line (follows : fc.Follows last) (src : Src) :
    ∃ after, after.Follows (src.last fline) ∧
      ∀ {count : ℕ}, count < 2 ^ 31 → ∀ (name : Name) (size : Word) text tt,
        readAdt uninitialized readTy ⟨name.text ++ ' ' :: (rangeText fline last src ++
            ' ' :: (decimal size ++ '\n' :: (decimal count ++ '\n' :: text))), tt, fc⟩ =
          (readIds uninitialized readTy count ⟨text, tt, after⟩).map
            (withIds name (src.decoded fline last uninitialized) size) := by
  obtain ⟨after, afterFollows, created⟩ :=
    @createNameSourceSize_size uninitialized readTy fline last fc follows src
  refine ⟨after, afterFollows, fun {count} fits name size text tt => ?_⟩
  have noBlank : ∀ delimiter ∈ [' '], delimiter ∉ name.text := fun delimiter isBlank =>
    name.notMem (List.mem_singleton.mp isBlank ▸ List.mem_cons_self)
  have noBlankSize : ∀ delimiter ∈ [' '], delimiter ∉ decimal size := fun delimiter isBlank =>
    List.mem_singleton.mp isBlank ▸ notMem_decimal (by decide) rfl
  have parts : split [' '] (name.text ++ ' ' :: (rangeText fline last src ++ ' ' :: decimal size)) =
      [name.text, rangeText fline last src, decimal size] := by
    rw [split, splitFrom_word (noDelimiter_of_notMem noBlank) name.nonempty List.mem_cons_self,
      splitFrom_word (rangeText_noBlank fline last src) (rangeText_ne_nil fline last src)
        List.mem_cons_self,
      splitFrom_last (noDelimiter_of_notMem noBlankSize) (decimal_ne_nil size)]
  have noNewline :
      '\n' ∉ name.text ++ ' ' :: (rangeText fline last src ++ ' ' :: decimal size) := by
    intro member
    rcases List.mem_append.mp member with inName | inRest
    · exact name.notMem (by decide) inName
    · rcases List.mem_append.mp (List.mem_of_ne_of_mem (by decide) inRest) with inRange | inSize
      · exact notMem_rangeText fline last src (by decide) rfl (by decide) (by decide) (by decide)
          inRange
      · exact notMem_decimal (by decide) rfl (List.mem_of_ne_of_mem (by decide) inSize)
  have line := getAsStringUntil_append noNewline (decimal count ++ '\n' :: text) tt fc
  simp only [List.append_assoc, List.cons_append] at line
  rw [readAdt, line]
  dsimp only
  rw [parts]
  exact created fits name size text tt

/-- A position without its file. -/
def lineColumn (changedLine : Prop) [Decidable changedLine] (line column : ℤ) : List Char :=
  field decimal changedLine line '.' ++ decimal column

theorem noMark_lineColumn (changedLine : Prop) [Decidable changedLine] {line column : ℤ}
    (isLine : IsWord line) (isColumn : IsWord column) :
    ∀ character ∈ lineColumn changedLine line column, character ∉ [' ', ':'] := by
  intro character member isDelimiter
  have isPart : character = '.' ∨ character = '-' ∨ character.isDigit = true := by
    rcases List.mem_append.mp member with inLine | inColumn
    · exact @letters_field decimalNumerals changedLine _ line isLine '.' character inLine
    · exact Or.inr (decimalNumerals.letters isColumn inColumn)
  rcases List.mem_cons.mp isDelimiter with rfl | isColon
  · rcases isPart with isDot | isSign | isDigit
    · cases isDot
    · cases isSign
    · cases isDigit
  · rw [List.mem_singleton.mp isColon] at isPart
    rcases isPart with isDot | isSign | isDigit
    · cases isDot
    · cases isSign
    · cases isDigit

theorem lineColumn_ne_nil (changedLine : Prop) [Decidable changedLine] (line column : ℤ) :
    lineColumn changedLine line column ≠ [] :=
  fun isNil => decimal_ne_nil column (List.append_eq_nil_iff.mp isNil).2

theorem noMark_decimal (value : ℤ) : ∀ character ∈ decimal value, character ∉ [' ', ':'] := by
  apply noDelimiter_of_notMem
  intro delimiter isDelimiter
  rcases List.mem_cons.mp isDelimiter with rfl | isColon
  · exact notMem_decimal (by decide) rfl
  · rw [List.mem_singleton.mp isColon]
    exact notMem_decimal (by decide) rfl

theorem splitFrom_file (changed : Prop) [Decidable changed] (value : ℤ) (part text : List Char) :
    splitFrom [' ', ':'] part (field decimal changed value ':' ++ text) =
      if changed then (part ++ decimal value) :: splitFrom [' ', ':'] [] text
      else splitFrom [' ', ':'] part text := by
  by_cases isChanged : changed
  · rw [field, if_pos isChanged, if_pos isChanged, List.append_assoc,
      splitFrom_append (noMark_decimal value), List.singleton_append, splitFrom,
      if_pos (by decide), if_neg fun isNil =>
        decimal_ne_nil value (List.append_eq_nil_iff.mp isNil).2]
  · rw [field, if_neg isChanged, if_neg isChanged, List.nil_append]

/-- The parts of a range are one, or more where a file is in it. -/
theorem splitFrom_rangeText (src : Src) (text : List Char) :
    splitFrom [' ', ':'] [] (rangeText fline last src ++ ' ' :: text) =
      let start := src.startLine fline
      let stop := src.stopLine fline
      let first := lineColumn (last.line ≠ start.line) start.line (column src.start) ++ [',']
      let second := lineColumn (start.line ≠ stop.line) stop.line (column src.stop)
      (if last.file ≠ start.file then [decimal start.file] else []) ++
        ((if start.file ≠ stop.file then [first ++ decimal stop.file, second]
          else [first ++ second]) ++ splitFrom [' ', ':'] [] text) := by
  have text_eq : rangeText fline last src ++ ' ' :: text =
      field decimal (last.file ≠ (src.startLine fline).file) (src.startLine fline).file ':' ++
        (lineColumn (last.line ≠ (src.startLine fline).line) (src.startLine fline).line
            (column src.start) ++ ([','] ++
          (field decimal ((src.startLine fline).file ≠ (src.stopLine fline).file)
            (src.stopLine fline).file ':' ++
              (lineColumn ((src.startLine fline).line ≠ (src.stopLine fline).line)
                (src.stopLine fline).line (column src.stop) ++ ' ' :: text)))) := by
    unfold rangeText startText stopText position lineColumn
    simp only [List.append_assoc, List.cons_append, List.nil_append]
    rfl
  have start := noMark_lineColumn (last.line ≠ (src.startLine fline).line)
    (src.startLine fline).isLine (isWord_column src.start)
  have stop := noMark_lineColumn ((src.startLine fline).line ≠ (src.stopLine fline).line)
    (src.stopLine fline).isLine (isWord_column src.stop)
  have comma : ∀ character ∈ [','], character ∉ [' ', ':'] := by
    intro character member
    rw [List.mem_singleton.mp member]
    decide
  have stopRead : ∀ part, splitFrom [' ', ':'] part
      (lineColumn ((src.startLine fline).line ≠ (src.stopLine fline).line)
        (src.stopLine fline).line (column src.stop) ++ ' ' :: text) =
      (part ++ lineColumn ((src.startLine fline).line ≠ (src.stopLine fline).line)
        (src.stopLine fline).line (column src.stop)) :: splitFrom [' ', ':'] [] text := by
    intro part
    rw [splitFrom_append stop, splitFrom, if_pos List.mem_cons_self, if_neg fun isNil =>
      lineColumn_ne_nil _ _ _ (List.append_eq_nil_iff.mp isNil).2]
  rw [text_eq, splitFrom_file]
  dsimp only
  by_cases startFile : last.file ≠ (src.startLine fline).file
  · rw [if_pos startFile, if_pos startFile, splitFrom_append start, splitFrom_append comma,
      splitFrom_file]
    by_cases stopFile : (src.startLine fline).file ≠ (src.stopLine fline).file
    · rw [if_pos stopFile, if_pos stopFile, stopRead]
      rfl
    · rw [if_neg stopFile, if_neg stopFile, stopRead]
      rfl
  · rw [if_neg startFile, if_neg startFile, splitFrom_append start, splitFrom_append comma,
      splitFrom_file]
    by_cases stopFile : (src.startLine fline).file ≠ (src.stopLine fline).file
    · rw [if_pos stopFile, if_pos stopFile, stopRead]
      rfl
    · rw [if_neg stopFile, if_neg stopFile, stopRead]
      rfl

/-- What comes behind a tag. -/
def readTagsBehind (count : ℕ) (found : NameSourceSize × Reader) :
    Except ReadError (List NameSourceSize × Reader) :=
  (readTags uninitialized readTy count found.2).map fun later => (found.1 :: later.1, later.2)

theorem readTags_succ (count : ℕ) (name : Name) (src : Src) {size : List Char}
    (noNewline : '\n' ∉ size) (text : List Char) (tt : TypeTable) :
    readTags uninitialized readTy (count + 1)
        ⟨name.text ++ ':' :: (rangeText fline last src ++ ' ' :: (size ++ '\n' :: text)), tt, fc⟩ =
      (createTag uninitialized readTy
        (name.text :: splitFrom [' ', ':'] [] (rangeText fline last src ++ ' ' :: size))
          ⟨text, tt, fc⟩).bind (readTagsBehind uninitialized readTy count) := by
  have inLine : '\n' ∉ name.text ++ ':' :: (rangeText fline last src ++ ' ' :: size) := by
    intro member
    rcases List.mem_append.mp member with inName | inRest
    · exact name.notMem (by decide) inName
    · rcases List.mem_append.mp (List.mem_of_ne_of_mem (by decide) inRest) with inRange | inSize
      · exact notMem_rangeText fline last src (by decide) rfl (by decide) (by decide) (by decide)
          inRange
      · exact noNewline (List.mem_of_ne_of_mem (by decide) inSize)
  have noMark : ∀ delimiter ∈ [' ', ':'], delimiter ∉ name.text := fun delimiter isDelimiter =>
    name.notMem (List.mem_cons.mpr ((List.mem_cons.mp isDelimiter).imp_right fun isColon =>
      List.mem_cons.mpr (Or.inl (List.mem_singleton.mp isColon))))
  have parts : split [' ', ':'] (name.text ++ ':' :: (rangeText fline last src ++ ' ' :: size)) =
      name.text :: splitFrom [' ', ':'] [] (rangeText fline last src ++ ' ' :: size) :=
    splitFrom_word (noDelimiter_of_notMem noMark) name.nonempty (by decide) _
  have line := getAsStringUntil_append inLine text tt fc
  simp only [List.append_assoc, List.cons_append] at line
  rw [readTags, line]
  dsimp only
  rw [parts]
  rfl

theorem splitFrom_rangeText_file {src : Src} (written : FileWritten fline last src)
    (text : List Char) :
    ∃ first second more, splitFrom [' ', ':'] [] (rangeText fline last src ++ ' ' :: text) =
      first :: second :: (more ++ splitFrom [' ', ':'] [] text) := by
  rw [splitFrom_rangeText]
  dsimp only
  by_cases startFile : last.file ≠ (src.startLine fline).file
  · rw [if_pos startFile]
    split
    · exact ⟨_, _, [_], rfl⟩
    · exact ⟨_, _, [], rfl⟩
  · rw [if_neg startFile, if_pos (written.resolve_left startFile)]
    exact ⟨_, _, [], rfl⟩

theorem splitFrom_rangeText_same {src : Src} (same : ¬ FileWritten fline last src)
    (text : List Char) :
    splitFrom [' ', ':'] [] (rangeText fline last src ++ ' ' :: text) =
      rangeText fline last src :: splitFrom [' ', ':'] [] text := by
  obtain ⟨sameStart, sameStop⟩ := not_or.mp same
  have start : startText decimalNumerals fline last src =
      lineColumn (last.line ≠ (src.startLine fline).line) (src.startLine fline).line
        (column src.start) := by
    rw [startText, position, field, if_neg sameStart]
    rfl
  have stop : stopText decimalNumerals fline src =
      lineColumn ((src.startLine fline).line ≠ (src.stopLine fline).line)
        (src.stopLine fline).line (column src.stop) := by
    rw [stopText, position, field, if_neg sameStop]
    rfl
  rw [splitFrom_rangeText, rangeText, start, stop]
  dsimp only
  rw [if_neg sameStart, if_neg sameStop, List.append_assoc]
  rfl

theorem createTag_size (follows : fc.Follows last) {src : Src}
    (same : ¬ FileWritten fline last src) :
    ∃ after, after.Follows (src.last fline) ∧
      ∀ {count : ℕ}, count < 2 ^ 31 → ∀ (name : Name) (size : Word) text tt,
        createTag uninitialized readTy
            (name.text :: splitFrom [' ', ':'] [] (rangeText fline last src ++ ' ' :: decimal size))
            ⟨decimal count ++ '\n' :: text, tt, fc⟩ =
          (readIds uninitialized readTy count ⟨text, tt, after⟩).map
            (withIds name (src.decoded fline last uninitialized) size) := by
  obtain ⟨after, afterFollows, created⟩ :=
    @createNameSourceSize_size uninitialized readTy fline last fc follows src
  refine ⟨after, afterFollows, fun {count} fits name size text tt => ?_⟩
  rw [splitFrom_rangeText_same same, splitFrom_last (noMark_decimal size) (decimal_ne_nil size)]
  exact created fits name size text tt

theorem createTag_shared (follows : fc.Follows last) {src : Src}
    (same : ¬ FileWritten fline last src) :
    ∃ after, after.Follows (src.last fline) ∧ ∀ (name : Name) text tt,
      createTag uninitialized readTy
          (name.text :: splitFrom [' ', ':'] [] (rangeText fline last src ++ [' ']))
          ⟨text, tt, fc⟩ =
        .ok (⟨name.text, src.decoded fline last uninitialized, none, []⟩, ⟨text, tt, after⟩) := by
  obtain ⟨after, isSource, afterFollows⟩ := readSrcEntry_rangeText uninitialized follows
  refine ⟨after, afterFollows, fun name text tt => ?_⟩
  rw [splitFrom_rangeText_same same]
  show createNameSourceSize uninitialized readTy _ _ none _ = _
  rw [createNameSourceSize, isSource]
  rfl

/-- With a file in its range a tag has too many parts. -/
theorem createTag_size_file {src : Src} (written : FileWritten fline last src) (name : List Char)
    (size : ℤ) (r : Reader) :
    createTag uninitialized readTy
        (name :: splitFrom [' ', ':'] [] (rangeText fline last src ++ ' ' :: decimal size)) r =
      .error (.runtime "Invalid tag item") := by
  obtain ⟨first, second, more, parts⟩ := splitFrom_rangeText_file written (decimal size)
  rw [parts, splitFrom_last (noMark_decimal size) (decimal_ne_nil size)]
  cases more <;> rfl

/-- A tag without a size, or a number of declarations, is read as if it had both. -/
theorem createTag_shared_file {src : Src} (written : FileWritten fline last src)
    (name : List Char) {text : List Char} {tt : TypeTable}
    (unnumbered : ∀ fc, ∃ error, readIdTable uninitialized readTy ⟨text, tt, fc⟩ = .error error) :
    ∃ error, createTag uninitialized readTy
        (name :: splitFrom [' ', ':'] [] (rangeText fline last src ++ [' '])) ⟨text, tt, fc⟩ =
      .error error := by
  obtain ⟨first, second, more, parts⟩ := splitFrom_rangeText_file written []
  rw [parts]
  cases more with
  | cons third more => exact ⟨_, rfl⟩
  | nil =>
      show ∃ error, createNameSourceSize _ _ _ first (some second) _ = .error error
      rw [createNameSourceSize]
      cases readSrcEntry uninitialized first fc with
      | error error => exact ⟨error, rfl⟩
      | ok found =>
          dsimp only [bind, Except.bind]
          cases stoi second with
          | error error => exact ⟨error, rfl⟩
          | ok size =>
              obtain ⟨error, isError⟩ := unnumbered found.2
              dsimp only
              rw [isError]
              exact ⟨error, rfl⟩

theorem BasicKind.typeClassOf_sbltname (kind : BasicKind) :
    typeClassOf kind.sbltname = some (.basic kind) := by
  cases kind <;> rfl

theorem WrapperKind.typeClassOf_sbltname (kind : WrapperKind) :
    typeClassOf kind.sbltname = some (.wrapper kind) := by
  cases kind <;> rfl

/-- A letter takes one call. -/
theorem readType_letter {letter : Char} {typeClass : TypeClass}
    (found : typeClassOf letter = some typeClass) {text : List Char} {fuel : ℕ}
    (enough : (letter :: text).length ≤ fuel) :
    ∃ less, text.length ≤ less ∧ ∀ rest tt fc,
      readType uninitialized fuel ⟨letter :: text ++ rest, tt, fc⟩ =
        readClass uninitialized (readType uninitialized less) typeClass
          ⟨text ++ rest, tt, fc⟩ := by
  cases fuel with
  | zero => exact absurd enough (Nat.not_succ_le_zero _)
  | succ less =>
      refine ⟨less, Nat.le_of_succ_le_succ enough, fun rest tt fc => ?_⟩
      rw [List.cons_append, readType]
      dsimp only
      rw [found]

theorem readClass_index (index : Word) (text : List Char) (tt : TypeTable) :
    readClass uninitialized readTy .typeIndex ⟨decimal index ++ '\n' :: text, tt, fc⟩ =
      .ok (⟨.typeIndex, index, 0⟩, ⟨text, tt, fc⟩) := by
  rw [readClass, getAsStringUntil_append (notMem_decimal (by decide) rfl)]
  dsimp only
  rw [stoi_number index.property]
  rfl

/-- A tuple with the place that it has been given before. -/
def pushTuple (place : ℕ) (size : Word) (found : List IdItem × Reader) : TypeT × Reader :=
  (⟨.tuple, place, 0⟩, { found.2 with tt := { found.2.tt with
    tupleTable := found.2.tt.tupleTable ++ [{ sizeInBytes := size, idTable := found.1 }] } })

theorem readClass_tuple (size : Word) {count : ℕ} (fits : count < 2 ^ 31) (text : List Char)
    (tt : TypeTable) :
    readClass uninitialized readTy .tuple
        ⟨decimal size ++ '.' :: (decimal count ++ '\n' :: text), tt, fc⟩ =
      (readIds uninitialized readTy count ⟨text, tt, fc⟩).map
        (pushTuple tt.tupleTable.length size) := by
  rw [readClass, getAsStringUntil_append (notMem_decimal (by decide) rfl)]
  dsimp only
  rw [stoi_number size.property]
  dsimp only [bind, Except.bind]
  rw [readIdTable_decimal uninitialized readTy fits]
  cases readIds uninitialized readTy count ⟨text, tt, fc⟩ <;> rfl

def pushAdt (typeClass : TypeClass) (tagTable : Option (List NameSourceSize))
    (found : NameSourceSize × Reader) : TypeT × Reader :=
  (⟨typeClass, found.2.tt.adtTable.length, 0⟩, { found.2 with tt := { found.2.tt with
    adtTable := found.2.tt.adtTable ++ [{ found.1 with tagTable }] } })

theorem readClass_adt (follows : fc.Follows last) (src : Src) :
    ∃ after, after.Follows (src.last fline) ∧
      ∀ {count : ℕ}, count < 2 ^ 31 → ∀ (name : Name) (size : Word) text tt,
        readClass uninitialized readTy .adt ⟨name.text ++ ' ' :: (rangeText fline last src ++
            ' ' :: (decimal size ++ '\n' :: (decimal count ++ '\n' :: text))), tt, fc⟩ =
          (readIds uninitialized readTy count ⟨text, tt, after⟩).map
            (pushAdt .adt none ∘ withIds name (src.decoded fline last uninitialized) size) := by
  obtain ⟨after, afterFollows, line⟩ :=
    @readAdt_line uninitialized readTy fline last fc follows src
  refine ⟨after, afterFollows, fun {count} fits name size text tt => ?_⟩
  rw [readClass, line fits]
  cases readIds uninitialized readTy count ⟨text, tt, after⟩ <;> rfl

/-- The tags of an ADT, behind its fields. -/
def readPick (item : NameSourceSize × Reader) : Except ReadError (TypeT × Reader) :=
  (readTagTable uninitialized readTy item.2).map fun tags =>
    pushAdt .adtPick (some tags.1) (item.1, tags.2)

theorem readClass_adtPick (follows : fc.Follows last) (src : Src) :
    ∃ after, after.Follows (src.last fline) ∧
      ∀ {count : ℕ}, count < 2 ^ 31 → ∀ (name : Name) (size : Word) text tt,
        readClass uninitialized readTy .adtPick ⟨name.text ++ ' ' :: (rangeText fline last src ++
            ' ' :: (decimal size ++ '\n' :: (decimal count ++ '\n' :: text))), tt, fc⟩ =
          (readIds uninitialized readTy count ⟨text, tt, after⟩).bind fun found =>
            readPick uninitialized readTy
              (withIds name (src.decoded fline last uninitialized) size found) := by
  obtain ⟨after, afterFollows, line⟩ :=
    @readAdt_line uninitialized readTy fline last fc follows src
  refine ⟨after, afterFollows, fun {count} fits name size text tt => ?_⟩
  rw [readClass, line fits]
  cases readIds uninitialized readTy count ⟨text, tt, after⟩ with
  | error error => rfl
  | ok found =>
      show (readTagTable _ _ found.2).bind _ = (readTagTable _ _ found.2).map _
      cases readTagTable uninitialized readTy found.2 <;> rfl

/-- The globals of a module are left in the text, and their number is the last column of its
range. -/
theorem readClass_module (follows : fc.Follows last) (src : Src) :
    ∃ after, after.Follows (src.last fline) ∧
      ∀ {count : ℕ}, count < 2 ^ 31 → ∀ (name : Name) text tt,
        readClass uninitialized readTy .module ⟨name.text ++ '\n' :: (rangeText fline last src ++
            ' ' :: (decimal count ++ '\n' :: text)), tt, fc⟩ =
          .ok (⟨.module, tt.stringsTable.length, tt.sourceTable.length⟩,
            ⟨text, { tt with
              stringsTable := tt.stringsTable ++ [name.text]
              sourceTable := tt.sourceTable ++
                [(src.decoded fline last uninitialized).column false count] }, after⟩) := by
  obtain ⟨after, isSource, afterFollows⟩ :=
    @readSrcEntry_rangeText fline last src uninitialized fc follows
  refine ⟨after, afterFollows, fun {count} fits name text tt => ?_⟩
  have noNewline : '\n' ∉ rangeText fline last src ++ ' ' :: decimal count := by
    intro member
    rcases List.mem_append.mp member with inRange | inCount
    · exact notMem_rangeText fline last src (by decide) rfl (by decide) (by decide) (by decide)
        inRange
    · exact notMem_decimal (by decide) rfl (List.mem_of_ne_of_mem (by decide) inCount)
  have line := getAsStringUntil_append noNewline text tt fc
  rw [List.append_assoc, List.cons_append] at line
  rw [readClass, getAsStringUntil_append (name.notMem (by decide))]
  dsimp only
  rw [line]
  dsimp only
  rw [readSrcEntry_count uninitialized (isWord_natCast fits), isSource]
  rfl

end Lines

end Disvm.SymbolFile
