import Disvm.SymbolSources

/-!
# Types of symbol files

The compiler writes a type by a letter and what belongs to it, with the fields of tuples
and of ADTs in lists of declarations.  The reader keeps the types inside of others in
tables and refers to them by their places.
-/

namespace Disvm.SymbolFile

open DecimalText

/-- The size of a type, the offset of a field or the place of a type in the table. -/
abbrev Word := { value : ℤ // IsWord value }

/-- An identifier.  No number can be read at its start. -/
structure Name where
  text : List Char
  nonempty : text ≠ []
  plain : ∀ character ∈ text, character ∉ [' ', ':', '\n']
  noNumber : ∀ first ∈ text.head?,
    first.isDigit = false ∧ isSpace first = false ∧ first ≠ '-' ∧ first ≠ '+'

/-- The basic types that `sbltname` tells apart: `Tany` is nil, and a `Tfix` is written as
a `Tint`. -/
inductive BasicKind where
  | none
  | any
  | int
  | big
  | byte
  | real
  | string
  | poly
  deriving DecidableEq, Repr

inductive WrapperKind where
  | array
  | list
  | chan
  | ref
  deriving DecidableEq, Repr

mutual

/-- A type as `sbltype` walks through it, with the sources of what is declared in it.  A
type of the type table is an `index`, unless it is written into the table. -/
inductive Ty (Source : Type) where
  | basic (kind : BasicKind)
  | index (sbl : Word)
  | wrapper (kind : WrapperKind) (tof : Ty Source)
  | tuple (size : Word) (ids : Ids Source)
  | adt (name : Name) (src : Source) (size : Word) (ids : Ids Source)
  | adtPick (name : Name) (src : Source) (size : Word) (ids : Ids Source) (tags : Tags Source)
  | module (name : Name) (src : Source) (ids : Ids Source)

/-- The visible declarations of one store, each with its offset. -/
inductive Ids (Source : Type) where
  | nil
  | cons (offset : Word) (name : Name) (src : Source) (ty : Ty Source) (next : Ids Source)

/-- The tags of a pick.  A tag that shares its type with the one before it is written
without size and fields. -/
inductive Tags (Source : Type) where
  | nil
  | cons (name : Name) (src : Source) (size : Word) (ids : Ids Source) (next : Tags Source)
  | shared (name : Name) (src : Source) (next : Tags Source)

end

def Ids.length {Source : Type} : Ids Source → ℕ
  | .nil => 0
  | .cons _ _ _ _ next => next.length + 1

def Tags.length {Source : Type} : Tags Source → ℕ
  | .nil => 0
  | .cons _ _ _ _ next => next.length + 1
  | .shared _ _ next => next.length + 1

/-- `sbltname`. -/
def BasicKind.sbltname : BasicKind → Char
  | .none => 'n'
  | .any => 'N'
  | .int => 'i'
  | .big => 'B'
  | .byte => 'b'
  | .real => 'f'
  | .string => 's'
  | .poly => 'P'

def WrapperKind.sbltname : WrapperKind → Char
  | .array => 'A'
  | .list => 'L'
  | .chan => 'C'
  | .ref => 'R'

/-- The source range of a declaration, with numbers as strings. -/
def sblsrcconv (fline : ℤ → FileLine) (last : Last) (src : Src) : List Char × Last :=
  srcconv decimal fline last src

mutual

def sbltype (fline : ℤ → FileLine) : Last → Ty Src → List Char × Last
  | last, .basic kind => ([kind.sbltname], last)
  | last, .index sbl => ('@' :: (decimal sbl ++ ['\n']), last)
  | last, .wrapper kind tof =>
      let (text, last) := sbltype fline last tof
      (kind.sbltname :: text, last)
  | last, .tuple size ids =>
      let (text, last) := sblids fline last ids
      ('t' :: (decimal size ++ '.' :: (decimal ids.length ++ '\n' :: text)), last)
  | last, .adt name src size ids =>
      let (range, last) := sblsrcconv fline last src
      let (text, last) := sblids fline last ids
      ('a' :: (name.text ++ ' ' :: (range ++ (decimal size ++
        '\n' :: (decimal ids.length ++ '\n' :: text)))), last)
  | last, .adtPick name src size ids tags =>
      let (range, last) := sblsrcconv fline last src
      let (text, last) := sblids fline last ids
      let (tagText, last) := sbltags fline last tags
      ('p' :: (name.text ++ ' ' :: (range ++ (decimal size ++
        '\n' :: (decimal ids.length ++ '\n' :: (text ++
          (decimal tags.length ++ '\n' :: tagText)))))), last)
  | last, .module name src ids =>
      let (range, last) := sblsrcconv fline last src
      let (text, last) := sblids fline last ids
      ('m' :: (name.text ++ '\n' :: (range ++ (decimal ids.length ++ '\n' :: text))), last)

/-- The second loop of `sbldecl`, behind the number of declarations. -/
def sblids (fline : ℤ → FileLine) : Last → Ids Src → List Char × Last
  | last, .nil => ([], last)
  | last, .cons offset name src ty next =>
      let (range, last) := sblsrcconv fline last src
      let (tyText, last) := sbltype fline last ty
      let (text, last) := sblids fline last next
      (decimal offset ++ ':' :: (name.text ++ ':' :: (range ++ (tyText ++ '\n' :: text))), last)

def sbltags (fline : ℤ → FileLine) : Last → Tags Src → List Char × Last
  | last, .nil => ([], last)
  | last, .cons name src size ids next =>
      let (range, last) := sblsrcconv fline last src
      let (text, last) := sblids fline last ids
      let (nextText, last) := sbltags fline last next
      (name.text ++ ':' :: (range ++ (decimal size ++
        '\n' :: (decimal ids.length ++ '\n' :: (text ++ nextText)))), last)
  | last, .shared name src next =>
      let (range, last) := sblsrcconv fline last src
      let (nextText, last) := sbltags fline last next
      (name.text ++ ':' :: (range ++ '\n' :: nextText), last)

end

/-- `type_class_t`. -/
inductive TypeClass where
  | typeIndex
  | adt
  | adtPick
  | tuple
  | module
  | function
  | wrapper (kind : WrapperKind)
  | basic (kind : BasicKind)
  deriving DecidableEq, Repr

/-- The letters of the type classes. -/
def typeClassOf (letter : Char) : Option TypeClass :=
  match letter with
  | '@' => some .typeIndex
  | 'a' => some .adt
  | 'p' => some .adtPick
  | 't' => some .tuple
  | 'm' => some .module
  | 'F' => some .function
  | 'A' => some (.wrapper .array)
  | 'C' => some (.wrapper .chan)
  | 'L' => some (.wrapper .list)
  | 'R' => some (.wrapper .ref)
  | 'n' => some (.basic .none)
  | 'N' => some (.basic .any)
  | 'B' => some (.basic .big)
  | 'b' => some (.basic .byte)
  | 'i' => some (.basic .int)
  | 'f' => some (.basic .real)
  | 's' => some (.basic .string)
  | 'P' => some (.basic .poly)
  | _ => none

/-- `type_t`.  The class of a type tells which table its indices are of, as their masks
do. -/
structure TypeT where
  typeClass : TypeClass
  valueIndex1 : ℤ
  valueIndex2 : ℤ
  deriving DecidableEq, Repr

/-- `id_item_t`. -/
structure IdItem where
  offset : ℕ
  name : List Char
  source : SourceRef
  type : TypeT
  deriving DecidableEq, Repr

/-- `name_source_size_t`.  The size is not written for every tag. -/
structure NameSourceSize where
  name : List Char
  source : SourceRef
  sizeInBytes : Option ℤ
  idTable : List IdItem
  deriving DecidableEq, Repr

structure AdtItem extends NameSourceSize where
  tagTable : Option (List NameSourceSize)
  deriving DecidableEq, Repr

structure TupleItem where
  sizeInBytes : ℤ
  idTable : List IdItem
  deriving DecidableEq, Repr

/-- `type_table_t`. -/
structure TypeTable where
  types : List TypeT
  stringsTable : List (List Char)
  innerTypeTable : List TypeT
  sourceTable : List SourceRef
  adtTable : List AdtItem
  tupleTable : List TupleItem
  deriving DecidableEq, Repr

/-- The text that is left, and the tables and the context that reading changes. -/
structure Reader where
  text : List Char
  tt : TypeTable
  fc : ReadContext
  deriving DecidableEq, Repr

def Reader.getAsStringUntil (r : Reader) (delimiter : Char) : List Char × Reader :=
  let (part, text) := readUntil delimiter r.text
  (part, { r with text })

/-- The end of a declaration. -/
def Reader.getNewline (r : Reader) : Except ReadError Reader :=
  match r.text with
  | '\n' :: text => .ok { r with text }
  | _ => .error (.runtime "Invalid ID table item")

/-- `std::stoul` of 32 bits, where a negative number wraps around. -/
def stoul (text : List Char) : Except ReadError ℕ :=
  match readInt (text.dropWhile isSpace) with
  | none => .error .invalidArgument
  | some (value, _) =>
      if value.natAbs < 2 ^ 32 then .ok (value % 2 ^ 32).toNat else .error .outOfRange

abbrev TypeReader := Reader → Except ReadError (TypeT × Reader)

section Tables

variable (uninitialized : SourceRef) (readTy : TypeReader)

def readIds : ℕ → Reader → Except ReadError (List IdItem × Reader)
  | 0, r => .ok ([], r)
  | count + 1, r => do
      let (offsetPart, r) := r.getAsStringUntil ':'
      if offsetPart = [] then .error (.runtime "Invalid ID table item (offset)")
      else
        let (namePart, r) := r.getAsStringUntil ':'
        if namePart = [] then .error (.runtime "Invalid ID table item (name)")
        else
          let (sourcePart, r) := r.getAsStringUntil ' '
          if sourcePart = [] then .error (.runtime "Invalid ID table item (source)")
          else
            let offset ← stoul offsetPart
            let (source, fc) ← readSrcEntry uninitialized sourcePart r.fc
            let (type, r) ← readTy { r with fc }
            let r ← r.getNewline
            let (items, r) ← readIds count r
            return ({ offset, name := namePart, source, type } :: items, r)

def readIdTable (r : Reader) : Except ReadError (List IdItem × Reader) := do
  let (countStr, r) := r.getAsStringUntil '\n'
  let (count, _) ← stoi countStr
  if count < 0 then .error .length
  else readIds uninitialized readTy count.toNat r

/-- The parts of the line, of which the third one is the size. -/
def createNameSourceSize (name source : List Char) (size : Option (List Char)) (r : Reader) :
    Except ReadError (NameSourceSize × Reader) := do
  let (source, fc) ← readSrcEntry uninitialized source r.fc
  match size with
  | none => return ({ name, source, sizeInBytes := none, idTable := [] }, { r with fc })
  | some size =>
      let (sizeInBytes, _) ← stoi size
      let (idTable, r) ← readIdTable uninitialized readTy { r with fc }
      return ({ name, source, sizeInBytes := some sizeInBytes, idTable }, r)

def createTag (parts : List (List Char)) (r : Reader) :
    Except ReadError (NameSourceSize × Reader) :=
  match parts with
  | [name, source] => createNameSourceSize uninitialized readTy name source none r
  | [name, source, size] => createNameSourceSize uninitialized readTy name source (some size) r
  | _ => .error (.runtime "Invalid tag item")

def readTags : ℕ → Reader → Except ReadError (List NameSourceSize × Reader)
  | 0, r => .ok ([], r)
  | count + 1, r => do
      let (line, r) := r.getAsStringUntil '\n'
      let (tag, r) ← createTag uninitialized readTy (split [' ', ':'] line) r
      let (tags, r) ← readTags count r
      return (tag :: tags, r)

def readAdt (r : Reader) : Except ReadError (NameSourceSize × Reader) :=
  let (line, r) := r.getAsStringUntil '\n'
  match split [' '] line with
  | [name, source, size] =>
      createNameSourceSize uninitialized readTy name source (some size) r
  | _ => .error (.runtime "Invalid adt item")

def readTagTable (r : Reader) : Except ReadError (List NameSourceSize × Reader) := do
  let (countStr, r) := r.getAsStringUntil '\n'
  let (count, _) ← stoi countStr
  readTags uninitialized readTy count.toNat r

/-- The place of an inner type or of a tuple is that of the end of its table before the
parts are read. -/
def readClass (typeClass : TypeClass) (r : Reader) : Except ReadError (TypeT × Reader) :=
  match typeClass with
  | .basic _ => .ok (⟨typeClass, 0, 0⟩, r)
  | .wrapper _ => do
      let place := r.tt.innerTypeTable.length
      let (inner, r) ← readTy r
      return (⟨typeClass, place, 0⟩,
        { r with tt := { r.tt with innerTypeTable := r.tt.innerTypeTable ++ [inner] } })
  | .typeIndex => do
      let (typeIndex, r) := r.getAsStringUntil '\n'
      let (index, _) ← stoi typeIndex
      return (⟨typeClass, index, 0⟩, r)
  | .adt => do
      let (item, r) ← readAdt uninitialized readTy r
      return (⟨typeClass, r.tt.adtTable.length, 0⟩,
        { r with tt := { r.tt with
          adtTable := r.tt.adtTable ++ [{ item with tagTable := none }] } })
  | .adtPick => do
      let (item, r) ← readAdt uninitialized readTy r
      let (tags, r) ← readTagTable uninitialized readTy r
      return (⟨typeClass, r.tt.adtTable.length, 0⟩,
        { r with tt := { r.tt with
          adtTable := r.tt.adtTable ++ [{ item with tagTable := some tags }] } })
  | .tuple => do
      let place := r.tt.tupleTable.length
      let (size, r) := r.getAsStringUntil '.'
      let (sizeInBytes, _) ← stoi size
      let (idTable, r) ← readIdTable uninitialized readTy r
      return (⟨typeClass, place, 0⟩,
        { r with tt := { r.tt with
          tupleTable := r.tt.tupleTable ++ [{ sizeInBytes, idTable }] } })
  | .module => do
      let place := r.tt.stringsTable.length
      let (name, r) := r.getAsStringUntil '\n'
      let (line, r) := r.getAsStringUntil '\n'
      let (source, fc) ← readSrcEntry uninitialized line r.fc
      return (⟨typeClass, place, r.tt.sourceTable.length⟩,
        { r with
          fc
          tt := { r.tt with
            stringsTable := r.tt.stringsTable ++ [name]
            sourceTable := r.tt.sourceTable ++ [source] } })
  | .function => do
      let place := r.tt.stringsTable.length
      let (name, r) := r.getAsStringUntil ' '
      if name = [] then .error (.runtime "Invalid function type")
      else
        let r := { r with tt := { r.tt with stringsTable := r.tt.stringsTable ++ [name] } }
        let innerPlace := r.tt.innerTypeTable.length
        let (inner, r) ← readTy r
        return (⟨typeClass, place, innerPlace⟩,
          { r with tt := { r.tt with innerTypeTable := r.tt.innerTypeTable ++ [inner] } })

end Tables

/-- Every call of `read_type` takes a letter, so that there are at most as many calls in
one another as there are characters. -/
def readType (uninitialized : SourceRef) : ℕ → TypeReader
  | 0, _ => .error (.runtime "Invalid type")
  | fuel + 1, r =>
      match r.text with
      | [] => .error (.runtime "Invalid type")
      | letter :: text =>
          match typeClassOf letter with
          | none => .error (.runtime "Invalid type value")
          | some typeClass =>
              readClass uninitialized (readType uninitialized fuel) typeClass { r with text }

def BasicKind.typeName : BasicKind → List Char
  | .none => "<none>".toList
  | .any => "nil".toList
  | .int => "int".toList
  | .big => "big".toList
  | .byte => "byte".toList
  | .real => "real".toList
  | .string => "string".toList
  | .poly => "*".toList

def WrapperKind.typeName : WrapperKind → List Char
  | .array => "array of ".toList
  | .chan => "chan of ".toList
  | .list => "list of ".toList
  | .ref => "ref ".toList

/-- The entries of a table by their places, where an entry that is not there is an
exception. -/
def entry {Entry : Type} (table : List Entry) (place : ℤ) : Option Entry :=
  if place < 0 then none else table[place.toNat]?

/-- `to_string`, as far as it goes without an exception. -/
def TypeTable.toString (tt : TypeTable) : ℕ → TypeT → Option (List Char)
  | 0, _ => none
  | fuel + 1, t =>
      match t.typeClass with
      | .basic kind => some kind.typeName
      | .wrapper kind => do
          let inner ← entry tt.innerTypeTable t.valueIndex1
          return kind.typeName ++ (← toString tt fuel inner)
      | .typeIndex => do toString tt fuel (← entry tt.types t.valueIndex1)
      | .adt => do return (← entry tt.adtTable t.valueIndex1).name
      | .adtPick => do return (← entry tt.adtTable t.valueIndex1).name
      | .tuple => do
          let item ← entry tt.tupleTable t.valueIndex1
          let names ← item.idTable.mapM fun id => toString tt fuel id.type
          return '(' :: ([','].intercalate names ++ [')'])
      | .module => entry tt.stringsTable t.valueIndex1
      | .function => do
          let name ← entry tt.stringsTable t.valueIndex1
          let inner ← entry tt.innerTypeTable t.valueIndex2
          return name ++ ' ' :: (← toString tt fuel inner)

end Disvm.SymbolFile
