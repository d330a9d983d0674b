import Disvm.SymbolTypes

/-!
# Trees in the tables of symbol files

A type with its tables represents at most one tree, which stays the same when the tables
grow.  The reader takes the place of an inner type or of a tuple before it reads the
parts, so that it finds there what the parts have put in first; `seen` is the tree that
it has in the end.
-/

namespace Disvm.SymbolFile

open DecimalText

section Map

variable {Source Other : Type} (f : Source → Other)

mutual

def Ty.map : Ty Source → Ty Other
  | .basic kind => .basic kind
  | .index sbl => .index sbl
  | .wrapper kind tof => .wrapper kind tof.map
  | .tuple size ids => .tuple size ids.map
  | .adt name src size ids => .adt name (f src) size ids.map
  | .adtPick name src size ids tags => .adtPick name (f src) size ids.map tags.map
  | .module name src ids => .module name (f src) ids.map

def Ids.map : Ids Source → Ids Other
  | .nil => .nil
  | .cons offset name src ty next => .cons offset name (f src) ty.map next.map

def Tags.map : Tags Source → Tags Other
  | .nil => .nil
  | .cons name src size ids next => .cons name (f src) size ids.map next.map
  | .shared name src next => .shared name (f src) next.map

end

end Map

def Ty.typeClass {Source : Type} : Ty Source → TypeClass
  | .basic kind => .basic kind
  | .index _ => .typeIndex
  | .wrapper kind _ => .wrapper kind
  | .tuple _ _ => .tuple
  | .adt _ _ _ _ => .adt
  | .adtPick _ _ _ _ _ => .adtPick
  | .module _ _ _ => .module

mutual

/-- The type with its tables is the tree. -/
def Represents (tt : TypeTable) : TypeT → Ty SourceRef → Prop
  | t, .basic kind => t.typeClass = .basic kind
  | t, .index sbl => t.typeClass = .typeIndex ∧ t.valueIndex1 = sbl
  | t, .wrapper kind tof => t.typeClass = .wrapper kind ∧
      ∃ inner, entry tt.innerTypeTable t.valueIndex1 = some inner ∧ Represents tt inner tof
  | t, .tuple size ids => t.typeClass = .tuple ∧
      ∃ item, entry tt.tupleTable t.valueIndex1 = some item ∧ item.sizeInBytes = size ∧
        RepresentsIds tt item.idTable ids
  | t, .adt name src size ids => t.typeClass = .adt ∧
      ∃ item, entry tt.adtTable t.valueIndex1 = some item ∧ item.name = name.text ∧
        item.source = src ∧ item.sizeInBytes = some size.val ∧ RepresentsIds tt item.idTable ids
  | t, .adtPick name src size ids tags => t.typeClass = .adtPick ∧
      ∃ item tagTable, entry tt.adtTable t.valueIndex1 = some item ∧ item.name = name.text ∧
        item.source = src ∧ item.sizeInBytes = some size.val ∧
          RepresentsIds tt item.idTable ids ∧ item.tagTable = some tagTable ∧
            RepresentsTags tt tagTable tags
  | t, .module name src ids => t.typeClass = .module ∧
      entry tt.stringsTable t.valueIndex1 = some name.text ∧
        entry tt.sourceTable t.valueIndex2 = some src ∧ ids = .nil

def RepresentsIds (tt : TypeTable) : List IdItem → Ids SourceRef → Prop
  | items, .nil => items = []
  | items, .cons offset name src ty next => ∃ item rest, items = item :: rest ∧
      item.offset = (offset.val % 2 ^ 32).toNat ∧ item.name = name.text ∧ item.source = src ∧
        Represents tt item.type ty ∧ RepresentsIds tt rest next

def RepresentsTags (tt : TypeTable) : List NameSourceSize → Tags SourceRef → Prop
  | items, .nil => items = []
  | items, .cons name src size ids next => ∃ item rest, items = item :: rest ∧
      item.name = name.text ∧ item.source = src ∧ item.sizeInBytes = some size.val ∧
        RepresentsIds tt item.idTable ids ∧ RepresentsTags tt rest next
  | items, .shared name src next => ∃ item rest, items = item :: rest ∧
      item.name = name.text ∧ item.source = src ∧ item.sizeInBytes = none ∧
        item.idTable = [] ∧ RepresentsTags tt rest next

end

variable {tt later : TypeTable} {t : TypeT}

theorem Represents.typeClass {ty : Ty SourceRef} (represents : Represents tt t ty) :
    t.typeClass = ty.typeClass := by
  cases ty with
  | basic kind => exact represents
  | index sbl => exact represents.1
  | wrapper kind tof => exact represents.1
  | tuple size ids => exact represents.1
  | adt name src size ids => exact represents.1
  | adtPick name src size ids tags => exact represents.1
  | module name src ids => exact represents.1

theorem Name.eq_of_text {first second : Name} (same : first.text = second.text) :
    first = second := by
  cases first
  cases second
  cases same
  rfl

theorem word_eq {first second : Word}
    (same : (first.val % 2 ^ 32).toNat = (second.val % 2 ^ 32).toNat) : first = second := by
  obtain ⟨first, isFirst⟩ := first
  obtain ⟨second, isSecond⟩ := second
  unfold IsWord at isFirst isSecond
  refine Subtype.ext ?_
  dsimp only at same ⊢
  omega

mutual

/-- A type does not represent two trees. -/
theorem Represents.unique : ∀ {t : TypeT} {first second : Ty SourceRef},
    Represents tt t first → Represents tt t second → first = second
  | t, first, second, represents, other => by
      have sameClass := represents.typeClass.symm.trans other.typeClass
      cases first with
      | basic kind =>
          cases second <;> cases sameClass
          rfl
      | index sbl =>
          cases second <;> cases sameClass
          exact congrArg Ty.index (Subtype.ext (represents.2.symm.trans other.2))
      | wrapper kind tof =>
          cases second <;> cases sameClass
          obtain ⟨-, inner, isEntry, isTof⟩ := represents
          obtain ⟨-, otherInner, isOther, otherTof⟩ := other
          rw [isEntry] at isOther
          cases isOther
          exact congrArg (Ty.wrapper kind) (isTof.unique otherTof)
      | tuple size ids =>
          cases second <;> cases sameClass
          obtain ⟨-, item, isEntry, isSize, isIds⟩ := represents
          obtain ⟨-, otherItem, isOther, otherSize, otherIds⟩ := other
          rw [isEntry] at isOther
          cases isOther
          rw [Subtype.ext (isSize.symm.trans otherSize), isIds.unique otherIds]
      | adt name src size ids =>
          cases second <;> cases sameClass
          obtain ⟨-, item, isEntry, isName, rfl, isSize, isIds⟩ := represents
          obtain ⟨-, otherItem, isOther, otherName, rfl, otherSize, otherIds⟩ := other
          rw [isEntry] at isOther
          cases isOther
          rw [Name.eq_of_text (isName.symm.trans otherName),
            Subtype.ext (Option.some.inj (isSize.symm.trans otherSize)), isIds.unique otherIds]
      | adtPick name src size ids tags =>
          cases second <;> cases sameClass
          obtain ⟨-, item, tagTable, isEntry, isName, rfl, isSize, isIds, isTable, isTags⟩ :=
            represents
          obtain ⟨-, otherItem, otherTable, isOther, otherName, rfl, otherSize, otherIds,
            sameTable, otherTags⟩ := other
          rw [isEntry] at isOther
          cases isOther
          rw [isTable] at sameTable
          cases sameTable
          rw [Name.eq_of_text (isName.symm.trans otherName),
            Subtype.ext (Option.some.inj (isSize.symm.trans otherSize)), isIds.unique otherIds,
            isTags.unique otherTags]
      | module name src ids =>
          cases second <;> cases sameClass
          obtain ⟨-, isEntry, isSource, rfl⟩ := represents
          obtain ⟨-, isOther, otherSource, rfl⟩ := other
          rw [Name.eq_of_text (Option.some.inj (isEntry.symm.trans isOther)),
            Option.some.inj (isSource.symm.trans otherSource)]

theorem RepresentsIds.unique : ∀ {items : List IdItem} {first second : Ids SourceRef},
    RepresentsIds tt items first → RepresentsIds tt items second → first = second
  | items, .nil, second, represents, other => by
      cases second with
      | nil => rfl
      | cons offset name src ty next =>
          obtain ⟨item, rest, isCons, -⟩ := other
          rw [represents] at isCons
          cases isCons
  | items, .cons offset name src ty next, second, represents, other => by
      obtain ⟨item, rest, rfl, isOffset, isName, rfl, isTy, isNext⟩ := represents
      cases second with
      | nil => cases other
      | cons otherOffset otherName otherSrc otherTy otherNext =>
          obtain ⟨same, sameRest, isCons, sameOffset, sameName, rfl, sameTy, sameNext⟩ := other
          cases isCons
          rw [word_eq (isOffset.symm.trans sameOffset),
            Name.eq_of_text (isName.symm.trans sameName), isTy.unique sameTy,
            isNext.unique sameNext]

theorem RepresentsTags.unique : ∀ {items : List NameSourceSize} {first second : Tags SourceRef},
    RepresentsTags tt items first → RepresentsTags tt items second → first = second
  | items, .nil, second, represents, other => by
      cases second with
      | nil => rfl
      | cons name src size ids next =>
          obtain ⟨item, rest, isCons, -⟩ := other
          rw [represents] at isCons
          cases isCons
      | shared name src next =>
          obtain ⟨item, rest, isCons, -⟩ := other
          rw [represents] at isCons
          cases isCons
  | items, .cons name src size ids next, second, represents, other => by
      obtain ⟨item, rest, rfl, isName, rfl, isSize, isIds, isNext⟩ := represents
      cases second with
      | nil => cases other
      | cons otherName otherSrc otherSize otherIds otherNext =>
          obtain ⟨same, sameRest, isCons, sameName, rfl, sameSize, sameIds, sameNext⟩ := other
          cases isCons
          rw [Name.eq_of_text (isName.symm.trans sameName),
            Subtype.ext (Option.some.inj (isSize.symm.trans sameSize)), isIds.unique sameIds,
            isNext.unique sameNext]
      | shared otherName otherSrc otherNext =>
          obtain ⟨same, sameRest, isCons, -, -, noSize, -⟩ := other
          cases isCons
          rw [noSize] at isSize
          cases isSize
  | items, .shared name src next, second, represents, other => by
      obtain ⟨item, rest, rfl, isName, rfl, noSize, -, isNext⟩ := represents
      cases second with
      | nil => cases other
      | cons otherName otherSrc otherSize otherIds otherNext =>
          obtain ⟨same, sameRest, isCons, -, -, isSize, -⟩ := other
          cases isCons
          rw [noSize] at isSize
          cases isSize
      | shared otherName otherSrc otherNext =>
          obtain ⟨same, sameRest, isCons, sameName, rfl, -, -, sameNext⟩ := other
          cases isCons
          rw [Name.eq_of_text (isName.symm.trans sameName), isNext.unique sameNext]

end

/-- The tables that are referred to by places only get longer. -/
structure Grows (tt later : TypeTable) : Prop where
  strings : tt.stringsTable <+: later.stringsTable
  sources : tt.sourceTable <+: later.sourceTable
  inner : tt.innerTypeTable <+: later.innerTypeTable
  adt : tt.adtTable <+: later.adtTable
  tuple : tt.tupleTable <+: later.tupleTable

theorem Grows.refl (tt : TypeTable) : Grows tt tt :=
  ⟨List.prefix_rfl, List.prefix_rfl, List.prefix_rfl, List.prefix_rfl, List.prefix_rfl⟩

theorem Grows.trans {middle : TypeTable} (first : Grows tt middle) (second : Grows middle later) :
    Grows tt later :=
  ⟨first.strings.trans second.strings, first.sources.trans second.sources,
    first.inner.trans second.inner, first.adt.trans second.adt, first.tuple.trans second.tuple⟩

theorem getElem?_of_isPrefix {Entry : Type} {table longer : List Entry} {place : ℕ}
    {found : Entry} (isPrefix : table <+: longer) (isEntry : table[place]? = some found) :
    longer[place]? = some found := by
  obtain ⟨rest, rfl⟩ := isPrefix
  obtain ⟨inside, -⟩ := List.getElem?_eq_some_iff.mp isEntry
  rwa [List.getElem?_append_left inside]

theorem entry_of_isPrefix {Entry : Type} {table longer : List Entry} {place : ℤ}
    {found : Entry} (isPrefix : table <+: longer) (isEntry : entry table place = some found) :
    entry longer place = some found := by
  unfold entry at *
  split at isEntry
  · cases isEntry
  · rename_i natural
    rw [if_neg natural]
    exact getElem?_of_isPrefix isPrefix isEntry

theorem entry_natCast {Entry : Type} (table : List Entry) (place : ℕ) :
    entry table place = table[place]? := by
  rw [entry, if_neg (by omega), Int.toNat_natCast]

mutual

theorem Represents.mono (grows : Grows tt later) : ∀ {t : TypeT} {ty : Ty SourceRef},
    Represents tt t ty → Represents later t ty
  | _, .basic _, represents => represents
  | _, .index _, represents => represents
  | _, .wrapper _ _, ⟨isClass, inner, isEntry, isTof⟩ =>
      ⟨isClass, inner, entry_of_isPrefix grows.inner isEntry, isTof.mono grows⟩
  | _, .tuple _ _, ⟨isClass, item, isEntry, isSize, isIds⟩ =>
      ⟨isClass, item, entry_of_isPrefix grows.tuple isEntry, isSize, isIds.mono grows⟩
  | _, .adt _ _ _ _, ⟨isClass, item, isEntry, isName, isSrc, isSize, isIds⟩ =>
      ⟨isClass, item, entry_of_isPrefix grows.adt isEntry, isName, isSrc, isSize,
        isIds.mono grows⟩
  | _, .adtPick _ _ _ _ _,
      ⟨isClass, item, tagTable, isEntry, isName, isSrc, isSize, isIds, isTable, isTags⟩ =>
      ⟨isClass, item, tagTable, entry_of_isPrefix grows.adt isEntry, isName, isSrc, isSize,
        isIds.mono grows, isTable, isTags.mono grows⟩
  | _, .module _ _ _, ⟨isClass, isEntry, isSource, noIds⟩ =>
      ⟨isClass, entry_of_isPrefix grows.strings isEntry, entry_of_isPrefix grows.sources isSource,
        noIds⟩

theorem RepresentsIds.mono (grows : Grows tt later) : ∀ {items : List IdItem} {ids : Ids SourceRef},
    RepresentsIds tt items ids → RepresentsIds later items ids
  | _, .nil, represents => represents
  | _, .cons _ _ _ _ _, ⟨item, rest, isCons, isOffset, isName, isSrc, isTy, isNext⟩ =>
      ⟨item, rest, isCons, isOffset, isName, isSrc, isTy.mono grows, isNext.mono grows⟩

theorem RepresentsTags.mono (grows : Grows tt later) :
    ∀ {items : List NameSourceSize} {tags : Tags SourceRef},
      RepresentsTags tt items tags → RepresentsTags later items tags
  | _, .nil, represents => represents
  | _, .cons _ _ _ _ _, ⟨item, rest, isCons, isName, isSrc, isSize, isIds, isNext⟩ =>
      ⟨item, rest, isCons, isName, isSrc, isSize, isIds.mono grows, isNext.mono grows⟩
  | _, .shared _ _ _, ⟨item, rest, isCons, isName, isSrc, noSize, noIds, isNext⟩ =>
      ⟨item, rest, isCons, isName, isSrc, noSize, noIds, isNext.mono grows⟩

end

/-- A tree, the first inner type and the first tuple that are put into the tables while
it is read. -/
structure Seen (Node : Type) where
  node : Node
  inner : Option (Ty SourceRef)
  tuple : Option (Word × Ids SourceRef)

mutual

def seen : Ty SourceRef → Seen (Ty SourceRef)
  | .basic kind => ⟨.basic kind, none, none⟩
  | .index sbl => ⟨.index sbl, none, none⟩
  | .wrapper kind tof =>
      let below := seen tof
      let found := below.inner.getD below.node
      ⟨.wrapper kind found, some found, below.tuple⟩
  | .tuple size ids =>
      let below := seenIds ids
      let found := below.tuple.getD (size, below.node)
      ⟨.tuple found.1 found.2, below.inner, some found⟩
  | .adt name src size ids =>
      let below := seenIds ids
      ⟨.adt name src size below.node, below.inner, below.tuple⟩
  | .adtPick name src size ids tags =>
      let below := seenIds ids
      let behind := seenTags tags
      ⟨.adtPick name src size below.node behind.node, below.inner.or behind.inner,
        below.tuple.or behind.tuple⟩
  | .module name src ids => ⟨.module name src ids, none, none⟩

def seenIds : Ids SourceRef → Seen (Ids SourceRef)
  | .nil => ⟨.nil, none, none⟩
  | .cons offset name src ty next =>
      let below := seen ty
      let behind := seenIds next
      ⟨.cons offset name src below.node behind.node, below.inner.or behind.inner,
        below.tuple.or behind.tuple⟩

def seenTags : Tags SourceRef → Seen (Tags SourceRef)
  | .nil => ⟨.nil, none, none⟩
  | .cons name src size ids next =>
      let below := seenIds ids
      let behind := seenTags next
      ⟨.cons name src size below.node behind.node, below.inner.or behind.inner,
        below.tuple.or behind.tuple⟩
  | .shared name src next =>
      let behind := seenTags next
      ⟨.shared name src behind.node, behind.inner, behind.tuple⟩

end

/-- The table has got what is seen first at the end that it had before. -/
def FirstInner (tt later : TypeTable) (ty : Option (Ty SourceRef)) : Prop :=
  match ty with
  | none => later.innerTypeTable = tt.innerTypeTable
  | some ty => ∃ t, later.innerTypeTable[tt.innerTypeTable.length]? = some t ∧
      Represents later t ty

def FirstTuple (tt later : TypeTable) (tuple : Option (Word × Ids SourceRef)) : Prop :=
  match tuple with
  | none => later.tupleTable = tt.tupleTable
  | some tuple => ∃ item, later.tupleTable[tt.tupleTable.length]? = some item ∧
      item.sizeInBytes = tuple.1 ∧ RepresentsIds later item.idTable tuple.2

/-- The tables after something has been read. -/
structure Reads {Node : Type} (tt later : TypeTable) (seen : Seen Node) : Prop where
  grows : Grows tt later
  inner : FirstInner tt later seen.inner
  tuple : FirstTuple tt later seen.tuple

theorem FirstInner.or {middle : TypeTable} {first second : Option (Ty SourceRef)}
    (reads : FirstInner tt middle first) (grows : Grows middle later)
    (after : FirstInner middle later second) : FirstInner tt later (first.or second) := by
  cases first with
  | none =>
      cases second with
      | none => exact Eq.trans after reads
      | some ty =>
          obtain ⟨t, isEntry, represents⟩ := after
          refine ⟨t, ?_, represents⟩
          rwa [show middle.innerTypeTable = tt.innerTypeTable from reads] at isEntry
  | some ty =>
      obtain ⟨t, isEntry, represents⟩ := reads
      exact ⟨t, getElem?_of_isPrefix grows.inner isEntry, represents.mono grows⟩

theorem FirstTuple.or {middle : TypeTable} {first second : Option (Word × Ids SourceRef)}
    (reads : FirstTuple tt middle first) (grows : Grows middle later)
    (after : FirstTuple middle later second) : FirstTuple tt later (first.or second) := by
  cases first with
  | none =>
      cases second with
      | none => exact Eq.trans after reads
      | some tuple =>
          obtain ⟨item, isEntry, represents⟩ := after
          refine ⟨item, ?_, represents⟩
          rwa [show middle.tupleTable = tt.tupleTable from reads] at isEntry
  | some tuple =>
      obtain ⟨item, isEntry, isSize, represents⟩ := reads
      exact ⟨item, getElem?_of_isPrefix grows.tuple isEntry, isSize, represents.mono grows⟩

section Conditions

variable {Source : Type}

mutual

def Ty.nodes : Ty Source → ℕ
  | .basic _ => 1
  | .index _ => 1
  | .wrapper _ tof => tof.nodes + 1
  | .tuple _ ids => ids.nodes + 1
  | .adt _ _ _ ids => ids.nodes + 1
  | .adtPick _ _ _ ids tags => ids.nodes + tags.nodes + 1
  | .module _ _ ids => ids.nodes + 1

def Ids.nodes : Ids Source → ℕ
  | .nil => 1
  | .cons _ _ _ ty next => ty.nodes + next.nodes + 1

def Tags.nodes : Tags Source → ℕ
  | .nil => 1
  | .cons _ _ _ ids next => ids.nodes + next.nodes + 1
  | .shared _ _ next => next.nodes + 1

end

mutual

/-- An array, list, channel or reference is read with the type. -/
def Ty.hasWrapper : Ty Source → Bool
  | .basic _ => false
  | .index _ => false
  | .wrapper _ _ => true
  | .tuple _ ids => ids.hasWrapper
  | .adt _ _ _ ids => ids.hasWrapper
  | .adtPick _ _ _ ids tags => ids.hasWrapper || tags.hasWrapper
  | .module _ _ _ => false

def Ids.hasWrapper : Ids Source → Bool
  | .nil => false
  | .cons _ _ _ ty next => ty.hasWrapper || next.hasWrapper

def Tags.hasWrapper : Tags Source → Bool
  | .nil => false
  | .cons _ _ _ ids next => ids.hasWrapper || next.hasWrapper
  | .shared _ _ next => next.hasWrapper

end

mutual

def Ty.hasTuple : Ty Source → Bool
  | .basic _ => false
  | .index _ => false
  | .wrapper _ tof => tof.hasTuple
  | .tuple _ _ => true
  | .adt _ _ _ ids => ids.hasTuple
  | .adtPick _ _ _ ids tags => ids.hasTuple || tags.hasTuple
  | .module _ _ _ => false

def Ids.hasTuple : Ids Source → Bool
  | .nil => false
  | .cons _ _ _ ty next => ty.hasTuple || next.hasTuple

def Tags.hasTuple : Tags Source → Bool
  | .nil => false
  | .cons _ _ _ ids next => ids.hasTuple || next.hasTuple
  | .shared _ _ next => next.hasTuple

end

mutual

/-- No array, list, channel or reference is written inside another one, and no tuple
inside another one. -/
def Ty.Simple : Ty Source → Prop
  | .basic _ => True
  | .index _ => True
  | .wrapper _ tof => tof.hasWrapper = false ∧ tof.Simple
  | .tuple _ ids => ids.hasTuple = false ∧ ids.Simple
  | .adt _ _ _ ids => ids.Simple
  | .adtPick _ _ _ ids tags => ids.Simple ∧ tags.Simple
  | .module _ _ _ => True

def Ids.Simple : Ids Source → Prop
  | .nil => True
  | .cons _ _ _ ty next => ty.Simple ∧ next.Simple

def Tags.Simple : Tags Source → Prop
  | .nil => True
  | .cons _ _ _ ids next => ids.Simple ∧ next.Simple
  | .shared _ _ next => next.Simple

end

end Conditions

section Map

variable {Source Other : Type} (f : Source → Other)

mutual

theorem Ty.nodes_map : ∀ ty : Ty Source, (ty.map f).nodes = ty.nodes
  | .basic _ => rfl
  | .index _ => rfl
  | .wrapper _ tof => congrArg (· + 1) tof.nodes_map
  | .tuple _ ids => congrArg (· + 1) ids.nodes_map
  | .adt _ _ _ ids => congrArg (· + 1) ids.nodes_map
  | .adtPick _ _ _ ids tags =>
      congrArg₂ (fun first second => first + second + 1) ids.nodes_map tags.nodes_map
  | .module _ _ ids => congrArg (· + 1) ids.nodes_map

theorem Ids.nodes_map : ∀ ids : Ids Source, (ids.map f).nodes = ids.nodes
  | .nil => rfl
  | .cons _ _ _ ty next =>
      congrArg₂ (fun first second => first + second + 1) ty.nodes_map next.nodes_map

theorem Tags.nodes_map : ∀ tags : Tags Source, (tags.map f).nodes = tags.nodes
  | .nil => rfl
  | .cons _ _ _ ids next =>
      congrArg₂ (fun first second => first + second + 1) ids.nodes_map next.nodes_map
  | .shared _ _ next => congrArg (· + 1) next.nodes_map

end

mutual

theorem Ty.hasWrapper_map : ∀ ty : Ty Source, (ty.map f).hasWrapper = ty.hasWrapper
  | .basic _ => rfl
  | .index _ => rfl
  | .wrapper _ _ => rfl
  | .tuple _ ids => ids.hasWrapper_map
  | .adt _ _ _ ids => ids.hasWrapper_map
  | .adtPick _ _ _ ids tags => congrArg₂ or ids.hasWrapper_map tags.hasWrapper_map
  | .module _ _ _ => rfl

theorem Ids.hasWrapper_map : ∀ ids : Ids Source, (ids.map f).hasWrapper = ids.hasWrapper
  | .nil => rfl
  | .cons _ _ _ ty next => congrArg₂ or ty.hasWrapper_map next.hasWrapper_map

theorem Tags.hasWrapper_map : ∀ tags : Tags Source, (tags.map f).hasWrapper = tags.hasWrapper
  | .nil => rfl
  | .cons _ _ _ ids next => congrArg₂ or ids.hasWrapper_map next.hasWrapper_map
  | .shared _ _ next => next.hasWrapper_map

end

mutual

theorem Ty.hasTuple_map : ∀ ty : Ty Source, (ty.map f).hasTuple = ty.hasTuple
  | .basic _ => rfl
  | .index _ => rfl
  | .wrapper _ tof => tof.hasTuple_map
  | .tuple _ _ => rfl
  | .adt _ _ _ ids => ids.hasTuple_map
  | .adtPick _ _ _ ids tags => congrArg₂ or ids.hasTuple_map tags.hasTuple_map
  | .module _ _ _ => rfl

theorem Ids.hasTuple_map : ∀ ids : Ids Source, (ids.map f).hasTuple = ids.hasTuple
  | .nil => rfl
  | .cons _ _ _ ty next => congrArg₂ or ty.hasTuple_map next.hasTuple_map

theorem Tags.hasTuple_map : ∀ tags : Tags Source, (tags.map f).hasTuple = tags.hasTuple
  | .nil => rfl
  | .cons _ _ _ ids next => congrArg₂ or ids.hasTuple_map next.hasTuple_map
  | .shared _ _ next => next.hasTuple_map

end

mutual

theorem Ty.simple_map_iff : ∀ ty : Ty Source, (ty.map f).Simple ↔ ty.Simple
  | .basic _ => Iff.rfl
  | .index _ => Iff.rfl
  | .wrapper _ tof => and_congr (by rw [tof.hasWrapper_map]) tof.simple_map_iff
  | .tuple _ ids => and_congr (by rw [ids.hasTuple_map]) ids.simple_map_iff
  | .adt _ _ _ ids => ids.simple_map_iff
  | .adtPick _ _ _ ids tags => and_congr ids.simple_map_iff tags.simple_map_iff
  | .module _ _ _ => Iff.rfl

theorem Ids.simple_map_iff : ∀ ids : Ids Source, (ids.map f).Simple ↔ ids.Simple
  | .nil => Iff.rfl
  | .cons _ _ _ ty next => and_congr ty.simple_map_iff next.simple_map_iff

theorem Tags.simple_map_iff : ∀ tags : Tags Source, (tags.map f).Simple ↔ tags.Simple
  | .nil => Iff.rfl
  | .cons _ _ _ ids next => and_congr ids.simple_map_iff next.simple_map_iff
  | .shared _ _ next => next.simple_map_iff

end

end Map

theorem or_isSome_eq {Entry : Type} {first second : Option Entry} {isFirst isSecond : Bool}
    (first_eq : first.isSome = isFirst) (second_eq : second.isSome = isSecond) :
    (first.or second).isSome = (isFirst || isSecond) := by
  rw [Option.isSome_or, first_eq, second_eq]

mutual

theorem seen_isSome : ∀ ty : Ty SourceRef,
    (seen ty).inner.isSome = ty.hasWrapper ∧ (seen ty).tuple.isSome = ty.hasTuple
  | .basic _ => ⟨rfl, rfl⟩
  | .index _ => ⟨rfl, rfl⟩
  | .wrapper _ tof => ⟨rfl, (seen_isSome tof).2⟩
  | .tuple _ ids => ⟨(seenIds_isSome ids).1, rfl⟩
  | .adt _ _ _ ids => seenIds_isSome ids
  | .adtPick _ _ _ ids tags =>
      ⟨or_isSome_eq (seenIds_isSome ids).1 (seenTags_isSome tags).1,
        or_isSome_eq (seenIds_isSome ids).2 (seenTags_isSome tags).2⟩
  | .module _ _ _ => ⟨rfl, rfl⟩

theorem seenIds_isSome : ∀ ids : Ids SourceRef,
    (seenIds ids).inner.isSome = ids.hasWrapper ∧ (seenIds ids).tuple.isSome = ids.hasTuple
  | .nil => ⟨rfl, rfl⟩
  | .cons _ _ _ ty next =>
      ⟨or_isSome_eq (seen_isSome ty).1 (seenIds_isSome next).1,
        or_isSome_eq (seen_isSome ty).2 (seenIds_isSome next).2⟩

theorem seenTags_isSome : ∀ tags : Tags SourceRef,
    (seenTags tags).inner.isSome = tags.hasWrapper ∧
      (seenTags tags).tuple.isSome = tags.hasTuple
  | .nil => ⟨rfl, rfl⟩
  | .cons _ _ _ ids next =>
      ⟨or_isSome_eq (seenIds_isSome ids).1 (seenTags_isSome next).1,
        or_isSome_eq (seenIds_isSome ids).2 (seenTags_isSome next).2⟩
  | .shared _ _ next => seenTags_isSome next

end

/-- What is seen is not larger than what is read, and what is put into the tables is
smaller. -/
structure Seen.Within {Node : Type} (seen : Seen Node) (nodes : Node → ℕ) (limit : ℕ) :
    Prop where
  node : nodes seen.node ≤ limit
  inner : ∀ ty ∈ seen.inner, ty.nodes < limit
  tuple : ∀ tuple ∈ seen.tuple, tuple.2.nodes < limit

theorem mem_of_mem_or {Entry : Type} {first second : Option Entry} {entry : Entry}
    (member : entry ∈ first.or second) : entry ∈ first ∨ entry ∈ second := by
  cases first with
  | none => exact Or.inr member
  | some found => exact Or.inl member

mutual

theorem seen_within : ∀ ty : Ty SourceRef, (seen ty).Within Ty.nodes ty.nodes
  | .basic _ =>
      ⟨Nat.le_refl _, (fun _ member => by cases member), (fun _ member => by cases member)⟩
  | .index _ =>
      ⟨Nat.le_refl _, (fun _ member => by cases member), (fun _ member => by cases member)⟩
  | .wrapper kind tof => by
      obtain ⟨node, inner, tuple⟩ := seen_within tof
      have found : ((seen tof).inner.getD (seen tof).node).nodes ≤ tof.nodes := by
        cases isInner : (seen tof).inner with
        | none => exact node
        | some ty => exact Nat.le_of_lt (inner ty isInner)
      refine ⟨Nat.succ_le_succ found, ?_, fun other member => ?_⟩
      · rintro ty ⟨⟩
        exact Nat.lt_succ_of_le found
      · exact Nat.lt_succ_of_lt (tuple other member)
  | .tuple size ids => by
      obtain ⟨node, inner, tuple⟩ := seenIds_within ids
      have found : ((seenIds ids).tuple.getD (size, (seenIds ids).node)).2.nodes ≤ ids.nodes := by
        cases isTuple : (seenIds ids).tuple with
        | none => exact node
        | some other => exact Nat.le_of_lt (tuple other isTuple)
      refine ⟨Nat.succ_le_succ found, fun ty member => ?_, ?_⟩
      · exact Nat.lt_succ_of_lt (inner ty member)
      · rintro other ⟨⟩
        exact Nat.lt_succ_of_le found
  | .adt _ _ _ ids => by
      obtain ⟨node, inner, tuple⟩ := seenIds_within ids
      exact ⟨Nat.succ_le_succ node, fun ty member => Nat.lt_succ_of_lt (inner ty member),
        fun other member => Nat.lt_succ_of_lt (tuple other member)⟩
  | .adtPick _ _ _ ids tags => by
      obtain ⟨node, inner, tuple⟩ := seenIds_within ids
      obtain ⟨tagNode, tagInner, tagTuple⟩ := seenTags_within tags
      refine ⟨Nat.succ_le_succ (Nat.add_le_add node tagNode), fun ty member => ?_,
        fun other member => ?_⟩
      · show _ < ids.nodes + tags.nodes + 1
        rcases mem_of_mem_or member with first | second
        · have below := inner ty first
          omega
        · have below := tagInner ty second
          omega
      · show _ < ids.nodes + tags.nodes + 1
        rcases mem_of_mem_or member with first | second
        · have below := tuple other first
          omega
        · have below := tagTuple other second
          omega
  | .module _ _ ids =>
      ⟨Nat.le_refl _, (fun _ member => by cases member), (fun _ member => by cases member)⟩

theorem seenIds_within : ∀ ids : Ids SourceRef, (seenIds ids).Within Ids.nodes ids.nodes
  | .nil => ⟨Nat.le_refl _, (fun _ member => by cases member), (fun _ member => by cases member)⟩
  | .cons _ _ _ ty next => by
      obtain ⟨node, inner, tuple⟩ := seen_within ty
      obtain ⟨nextNode, nextInner, nextTuple⟩ := seenIds_within next
      refine ⟨Nat.succ_le_succ (Nat.add_le_add node nextNode), fun found member => ?_,
        fun other member => ?_⟩
      · show _ < ty.nodes + next.nodes + 1
        rcases mem_of_mem_or member with first | second
        · have below := inner found first
          omega
        · have below := nextInner found second
          omega
      · show _ < ty.nodes + next.nodes + 1
        rcases mem_of_mem_or member with first | second
        · have below := tuple other first
          omega
        · have below := nextTuple other second
          omega

theorem seenTags_within : ∀ tags : Tags SourceRef, (seenTags tags).Within Tags.nodes tags.nodes
  | .nil => ⟨Nat.le_refl _, (fun _ member => by cases member), (fun _ member => by cases member)⟩
  | .cons _ _ _ ids next => by
      obtain ⟨node, inner, tuple⟩ := seenIds_within ids
      obtain ⟨nextNode, nextInner, nextTuple⟩ := seenTags_within next
      refine ⟨Nat.succ_le_succ (Nat.add_le_add node nextNode), fun found member => ?_,
        fun other member => ?_⟩
      · show _ < ids.nodes + next.nodes + 1
        rcases mem_of_mem_or member with first | second
        · have below := inner found first
          omega
        · have below := nextInner found second
          omega
      · show _ < ids.nodes + next.nodes + 1
        rcases mem_of_mem_or member with first | second
        · have below := tuple other first
          omega
        · have below := nextTuple other second
          omega
  | .shared _ _ next => by
      obtain ⟨node, inner, tuple⟩ := seenTags_within next
      exact ⟨Nat.succ_le_succ node, fun ty member => Nat.lt_succ_of_lt (inner ty member),
        fun other member => Nat.lt_succ_of_lt (tuple other member)⟩

end

mutual

/-- A simple tree is seen as it is. -/
theorem Ty.Simple.seen : ∀ {ty : Ty SourceRef}, ty.Simple → (seen ty).node = ty
  | .basic _, _ => rfl
  | .index _, _ => rfl
  | .wrapper kind tof, ⟨noWrapper, simple⟩ => by
      have isSome := (seen_isSome tof).1
      rw [noWrapper, Option.isSome_eq_false_iff, Option.isNone_iff_eq_none] at isSome
      show Ty.wrapper kind ((SymbolFile.seen tof).inner.getD (SymbolFile.seen tof).node) = _
      rw [isSome, Option.getD_none, simple.seen]
  | .tuple size ids, ⟨noTuple, simple⟩ => by
      have isSome := (seenIds_isSome ids).2
      rw [noTuple, Option.isSome_eq_false_iff, Option.isNone_iff_eq_none] at isSome
      show Ty.tuple ((seenIds ids).tuple.getD (size, (seenIds ids).node)).1
        ((seenIds ids).tuple.getD (size, (seenIds ids).node)).2 = _
      rw [isSome, Option.getD_none, simple.seen]
  | .adt name src size ids, simple => congrArg (Ty.adt name src size) (Ids.Simple.seen simple)
  | .adtPick name src size _ _, ⟨simpleIds, simpleTags⟩ =>
      congrArg₂ (Ty.adtPick name src size) simpleIds.seen simpleTags.seen
  | .module _ _ _, _ => rfl

theorem Ids.Simple.seen : ∀ {ids : Ids SourceRef}, ids.Simple → (seenIds ids).node = ids
  | .nil, _ => rfl
  | .cons offset name src _ _, ⟨simple, simpleNext⟩ =>
      congrArg₂ (Ids.cons offset name src) simple.seen simpleNext.seen

theorem Tags.Simple.seen : ∀ {tags : Tags SourceRef}, tags.Simple → (seenTags tags).node = tags
  | .nil, _ => rfl
  | .cons name src size _ _, ⟨simple, simpleNext⟩ =>
      congrArg₂ (Tags.cons name src size) simple.seen simpleNext.seen
  | .shared name src _, simple => congrArg (Tags.shared name src) (Tags.Simple.seen simple)

end

def ignore {Source : Type} (_ : Source) : Unit :=
  ()

mutual

/-- A tree of which all but the sources is seen is simple. -/
theorem Ty.simple_of_seen : ∀ {ty : Ty SourceRef},
    (seen ty).node.map ignore = ty.map ignore → ty.Simple
  | .basic _, _ => trivial
  | .index _, _ => trivial
  | .wrapper kind tof, same => by
      have isSome := (seen_isSome tof).1
      obtain ⟨-, same⟩ := Ty.wrapper.inj same
      cases isInner : (seen tof).inner with
      | none =>
          rw [isInner] at isSome same
          exact ⟨isSome.symm, Ty.simple_of_seen same⟩
      | some ty =>
          have smaller := (seen_within tof).inner ty isInner
          rw [isInner] at same
          have sameNodes := congrArg Ty.nodes same
          rw [Ty.nodes_map, Ty.nodes_map] at sameNodes
          exact absurd sameNodes (Nat.ne_of_lt smaller)
  | .tuple size ids, same => by
      have isSome := (seenIds_isSome ids).2
      obtain ⟨-, same⟩ := Ty.tuple.inj same
      cases isTuple : (seenIds ids).tuple with
      | none =>
          rw [isTuple] at isSome same
          exact ⟨isSome.symm, Ids.simple_of_seen same⟩
      | some tuple =>
          have smaller := (seenIds_within ids).tuple tuple isTuple
          rw [isTuple] at same
          have sameNodes := congrArg Ids.nodes same
          rw [Ids.nodes_map, Ids.nodes_map] at sameNodes
          exact absurd sameNodes (Nat.ne_of_lt smaller)
  | .adt _ _ _ _, same => Ids.simple_of_seen (Ty.adt.inj same).2.2.2
  | .adtPick _ _ _ _ _, same =>
      ⟨Ids.simple_of_seen (Ty.adtPick.inj same).2.2.2.1,
        Tags.simple_of_seen (Ty.adtPick.inj same).2.2.2.2⟩
  | .module _ _ _, _ => trivial

theorem Ids.simple_of_seen : ∀ {ids : Ids SourceRef},
    (seenIds ids).node.map ignore = ids.map ignore → ids.Simple
  | .nil, _ => trivial
  | .cons _ _ _ _ _, same =>
      ⟨Ty.simple_of_seen (Ids.cons.inj same).2.2.2.1,
        Ids.simple_of_seen (Ids.cons.inj same).2.2.2.2⟩

theorem Tags.simple_of_seen : ∀ {tags : Tags SourceRef},
    (seenTags tags).node.map ignore = tags.map ignore → tags.Simple
  | .nil, _ => trivial
  | .cons _ _ _ _ _, same =>
      ⟨Ids.simple_of_seen (Tags.cons.inj same).2.2.2.1,
        Tags.simple_of_seen (Tags.cons.inj same).2.2.2.2⟩
  | .shared _ _ _, same => by
      have simple := Tags.simple_of_seen (Tags.shared.inj same).2.2
      exact simple

end

mutual

/-- The name of a tree, with names for the types of the type table. -/
def Ty.render (names : ℤ → Option (List Char)) : Ty SourceRef → Option (List Char)
  | .basic kind => some kind.typeName
  | .index sbl => names sbl
  | .wrapper kind tof => (tof.render names).map (kind.typeName ++ ·)
  | .tuple _ ids =>
      (ids.renderAll names).map fun texts => '(' :: ([','].intercalate texts ++ [')'])
  | .adt name _ _ _ => some name.text
  | .adtPick name _ _ _ _ => some name.text
  | .module name _ _ => some name.text

def Ids.renderAll (names : ℤ → Option (List Char)) : Ids SourceRef → Option (List (List Char))
  | .nil => some []
  | .cons _ _ _ ty next =>
      (ty.render names).bind fun text => (next.renderAll names).map (text :: ·)

end

theorem mapM_mono {Entry : Type} {first second : Entry → Option (List Char)}
    (grows : ∀ found text, first found = some text → second found = some text)
    {list : List Entry} {texts : List (List Char)} (mapped : list.mapM first = some texts) :
    list.mapM second = some texts := by
  induction list generalizing texts with
  | nil => exact mapped
  | cons found list ih =>
      rw [List.mapM_cons] at mapped ⊢
      obtain ⟨text, isText, rest⟩ := Option.bind_eq_some_iff.mp mapped
      obtain ⟨texts, areTexts, isCons⟩ := Option.bind_eq_some_iff.mp rest
      rw [grows found text isText, ih areTexts]
      exact isCons

/-- A name that has been found stays the same with more fuel. -/
theorem toString_succ {fuel : ℕ} {t : TypeT} {text : List Char}
    (found : tt.toString fuel t = some text) : tt.toString (fuel + 1) t = some text := by
  induction fuel generalizing t text with
  | zero => cases found
  | succ fuel ih =>
      rw [TypeTable.toString] at found ⊢
      cases isClass : t.typeClass with
      | basic kind =>
          rw [isClass] at found
          exact found
      | wrapper kind =>
          rw [isClass] at found
          obtain ⟨inner, isEntry, rest⟩ := Option.bind_eq_some_iff.mp found
          obtain ⟨name, isName, isText⟩ := Option.bind_eq_some_iff.mp rest
          refine Option.bind_eq_some_iff.mpr ⟨inner, isEntry, ?_⟩
          exact Option.bind_eq_some_iff.mpr ⟨name, ih isName, isText⟩
      | typeIndex =>
          rw [isClass] at found
          obtain ⟨inner, isEntry, isText⟩ := Option.bind_eq_some_iff.mp found
          exact Option.bind_eq_some_iff.mpr ⟨inner, isEntry, ih isText⟩
      | adt =>
          rw [isClass] at found
          exact found
      | adtPick =>
          rw [isClass] at found
          exact found
      | tuple =>
          rw [isClass] at found
          obtain ⟨item, isEntry, rest⟩ := Option.bind_eq_some_iff.mp found
          obtain ⟨names, areNames, isText⟩ := Option.bind_eq_some_iff.mp rest
          refine Option.bind_eq_some_iff.mpr ⟨item, isEntry, ?_⟩
          exact Option.bind_eq_some_iff.mpr ⟨names, mapM_mono (fun _ _ => ih) areNames, isText⟩
      | module =>
          rw [isClass] at found
          exact found
      | function =>
          rw [isClass] at found
          obtain ⟨name, isName, rest⟩ := Option.bind_eq_some_iff.mp found
          obtain ⟨inner, isEntry, last⟩ := Option.bind_eq_some_iff.mp rest
          obtain ⟨innerName, isInner, isText⟩ := Option.bind_eq_some_iff.mp last
          refine Option.bind_eq_some_iff.mpr ⟨name, isName, ?_⟩
          refine Option.bind_eq_some_iff.mpr ⟨inner, isEntry, ?_⟩
          exact Option.bind_eq_some_iff.mpr ⟨innerName, ih isInner, isText⟩

theorem toString_mono {fuel more : ℕ} (enough : fuel ≤ more) {t : TypeT} {text : List Char}
    (found : tt.toString fuel t = some text) : tt.toString more t = some text := by
  induction enough with
  | refl => exact found
  | step _ ih => exact toString_succ ih

/-- The names that the types of the type table have. -/
def TypeTable.typeName (tt : TypeTable) (fuel : ℕ) (index : ℤ) : Option (List Char) :=
  tt.toString fuel ⟨.typeIndex, index, 0⟩

mutual

/-- A type is rendered as the tree that it represents. -/
theorem Represents.toString {fuel : ℕ} : ∀ {t : TypeT} {ty : Ty SourceRef} {text : List Char},
    Represents tt t ty → ty.render (tt.typeName fuel) = some text →
      tt.toString (fuel + ty.nodes) t = some text
  | t, .basic kind, text, represents, named => by
      rw [Ty.nodes, TypeTable.toString, show t.typeClass = _ from represents]
      exact named
  | t, .index sbl, text, represents, named => by
      obtain ⟨isClass, isIndex⟩ := represents
      refine toString_succ ?_
      rw [Ty.render, TypeTable.typeName] at named
      cases fuel with
      | zero => cases named
      | succ fuel =>
          rw [TypeTable.toString] at named ⊢
          rw [isClass, isIndex]
          exact named
  | t, .wrapper kind tof, text, ⟨isClass, inner, isEntry, isTof⟩, named => by
      obtain ⟨name, isName, rfl⟩ := Option.map_eq_some_iff.mp named
      have found := isTof.toString isName
      rw [Ty.nodes, ← Nat.add_assoc, TypeTable.toString, isClass]
      refine Option.bind_eq_some_iff.mpr ⟨inner, isEntry, ?_⟩
      exact Option.bind_eq_some_iff.mpr ⟨name, found, rfl⟩
  | t, .tuple size ids, text, ⟨isClass, item, isEntry, isSize, isIds⟩, named => by
      obtain ⟨names, areNames, rfl⟩ := Option.map_eq_some_iff.mp named
      have found := isIds.toString areNames (Nat.le_refl (fuel + ids.nodes))
      rw [Ty.nodes, ← Nat.add_assoc, TypeTable.toString, isClass]
      refine Option.bind_eq_some_iff.mpr ⟨item, isEntry, ?_⟩
      exact Option.bind_eq_some_iff.mpr ⟨names, found, rfl⟩
  | t, .adt name src size ids, text, ⟨isClass, item, isEntry, isName, _⟩, named => by
      rw [Ty.nodes, ← Nat.add_assoc, TypeTable.toString, isClass]
      refine Option.bind_eq_some_iff.mpr ⟨item, isEntry, ?_⟩
      exact (congrArg some isName).trans named
  | t, .adtPick name src size ids tags, text, ⟨isClass, item, _, isEntry, isName, _⟩, named => by
      rw [Ty.nodes, ← Nat.add_assoc, TypeTable.toString, isClass]
      refine Option.bind_eq_some_iff.mpr ⟨item, isEntry, ?_⟩
      exact (congrArg some isName).trans named
  | t, .module name src ids, text, ⟨isClass, isEntry, _⟩, named => by
      rw [Ty.nodes, ← Nat.add_assoc, TypeTable.toString, isClass]
      exact isEntry.trans named

theorem RepresentsIds.toString {fuel : ℕ} :
    ∀ {items : List IdItem} {ids : Ids SourceRef} {texts : List (List Char)} {more : ℕ},
      RepresentsIds tt items ids → ids.renderAll (tt.typeName fuel) = some texts →
        fuel + ids.nodes ≤ more →
          (items.mapM fun item => tt.toString more item.type) = some texts
  | items, .nil, texts, more, represents, named, _ => by
      rw [show items = [] from represents]
      exact named
  | items, .cons offset name src ty next, texts, more,
      ⟨item, rest, isCons, _, _, _, isTy, isNext⟩, named, enough => by
      obtain ⟨text, isText, others⟩ := Option.bind_eq_some_iff.mp named
      obtain ⟨texts, areTexts, rfl⟩ := Option.map_eq_some_iff.mp others
      rw [Ids.nodes] at enough
      have found : tt.toString more item.type = some text :=
        toString_mono (show fuel + ty.nodes ≤ more by omega) (isTy.toString isText)
      have behind : (rest.mapM fun item => tt.toString more item.type) = some texts :=
        isNext.toString areTexts (show fuel + next.nodes ≤ more by omega)
      rw [isCons, List.mapM_cons, found, behind]
      rfl

end

end Disvm.SymbolFile
