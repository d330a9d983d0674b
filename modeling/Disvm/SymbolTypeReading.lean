import Disvm.SymbolTypeLines

/-!
# Types of symbol files, written and read

The reader takes back the text of a type, unless the globals of a module are in it or a
file in front of the range of a tag.  What it has then put into its tables is the tree
that was written, unless an array, list, channel or reference is inside another one, or
a tuple inside another tuple.
-/

namespace Disvm.SymbolFile

open DecimalText

section Counted

variable {Source : Type}

mutual

/-- The numbers of declarations and tags are ints of the compiler. -/
def Ty.Counted : Ty Source → Prop
  | .basic _ => True
  | .index _ => True
  | .wrapper _ tof => tof.Counted
  | .tuple _ ids => ids.Counted
  | .adt _ _ _ ids => ids.Counted
  | .adtPick _ _ _ ids tags => ids.Counted ∧ tags.Counted
  | .module _ _ ids => ids.Counted

def Ids.Counted : Ids Source → Prop
  | .nil => True
  | .cons _ _ _ ty next => next.length + 1 < 2 ^ 31 ∧ ty.Counted ∧ next.Counted

def Tags.Counted : Tags Source → Prop
  | .nil => True
  | .cons _ _ _ ids next => next.length + 1 < 2 ^ 31 ∧ ids.Counted ∧ next.Counted
  | .shared _ _ next => next.length + 1 < 2 ^ 31 ∧ next.Counted

end

theorem Ids.Counted.fits {ids : Ids Source} (counted : ids.Counted) : ids.length < 2 ^ 31 := by
  cases ids with
  | nil => exact Nat.two_pow_pos 31
  | cons offset name src ty next => exact counted.1

theorem Tags.Counted.fits {tags : Tags Source} (counted : tags.Counted) :
    tags.length < 2 ^ 31 := by
  cases tags with
  | nil => exact Nat.two_pow_pos 31
  | cons name src size ids next => exact counted.1
  | shared name src next => exact counted.1

end Counted

variable (fline : ℤ → FileLine)

mutual

/-- No module is written with globals, and no tag with a file. -/
def LegibleTy : Last → Ty Src → Prop
  | _, .basic _ => True
  | _, .index _ => True
  | last, .wrapper _ tof => LegibleTy last tof
  | last, .tuple _ ids => LegibleIds last ids
  | _, .adt _ src _ ids => LegibleIds (src.last fline) ids
  | _, .adtPick _ src _ ids tags =>
      LegibleIds (src.last fline) ids ∧
        LegibleTags (sblids fline (src.last fline) ids).2 tags
  | _, .module _ _ ids => ids = .nil

def LegibleIds : Last → Ids Src → Prop
  | _, .nil => True
  | _, .cons _ _ src ty next =>
      LegibleTy (src.last fline) ty ∧ LegibleIds (sbltype fline (src.last fline) ty).2 next

def LegibleTags : Last → Tags Src → Prop
  | _, .nil => True
  | last, .cons _ src _ ids next =>
      ¬ FileWritten fline last src ∧ LegibleIds (src.last fline) ids ∧
        LegibleTags (sblids fline (src.last fline) ids).2 next
  | last, .shared _ src next =>
      ¬ FileWritten fline last src ∧ LegibleTags (src.last fline) next

end

section Texts

variable (last : Last) (name : Name) (src : Src) (size : Word)

theorem sbltype_adt (ids : Ids Src) :
    sbltype fline last (.adt name src size ids) =
      ('a' :: (name.text ++ ' ' :: (rangeText fline last src ++ ' ' :: (decimal size ++
        '\n' :: (decimal ids.length ++ '\n' :: (sblids fline (src.last fline) ids).1)))),
        (sblids fline (src.last fline) ids).2) := by
  rw [sbltype, sblsrcconv_eq]
  dsimp only
  rw [List.append_assoc]
  rfl

theorem sbltype_adtPick (ids : Ids Src) (tags : Tags Src) :
    sbltype fline last (.adtPick name src size ids tags) =
      let (text, last') := sblids fline (src.last fline) ids
      let (tagText, after) := sbltags fline last' tags
      ('p' :: (name.text ++ ' ' :: (rangeText fline last src ++ ' ' :: (decimal size ++
        '\n' :: (decimal ids.length ++ '\n' :: (text ++
          (decimal tags.length ++ '\n' :: tagText)))))), after) := by
  rw [sbltype, sblsrcconv_eq]
  dsimp only
  rw [List.append_assoc]
  rfl

theorem sbltype_module (ids : Ids Src) :
    sbltype fline last (.module name src ids) =
      ('m' :: (name.text ++ '\n' :: (rangeText fline last src ++ ' ' :: (decimal ids.length ++
        '\n' :: (sblids fline (src.last fline) ids).1))),
        (sblids fline (src.last fline) ids).2) := by
  rw [sbltype, sblsrcconv_eq]
  dsimp only
  rw [List.append_assoc]
  rfl

theorem sblids_cons (offset : Word) (ty : Ty Src) (next : Ids Src) :
    sblids fline last (.cons offset name src ty next) =
      let (tyText, last') := sbltype fline (src.last fline) ty
      let (text, after) := sblids fline last' next
      (decimal offset ++ ':' :: (name.text ++ ':' :: (rangeText fline last src ++
        ' ' :: (tyText ++ '\n' :: text))), after) := by
  rw [sblids, sblsrcconv_eq]
  dsimp only
  rw [List.append_assoc]
  rfl

theorem sbltags_cons (ids : Ids Src) (next : Tags Src) :
    sbltags fline last (.cons name src size ids next) =
      let (text, last') := sblids fline (src.last fline) ids
      let (nextText, after) := sbltags fline last' next
      (name.text ++ ':' :: (rangeText fline last src ++ ' ' :: (decimal size ++
        '\n' :: (decimal ids.length ++ '\n' :: (text ++ nextText)))), after) := by
  rw [sbltags, sblsrcconv_eq]
  dsimp only
  rw [List.append_assoc]
  rfl

theorem sbltags_shared (next : Tags Src) :
    sbltags fline last (.shared name src next) =
      (name.text ++ ':' :: (rangeText fline last src ++ ' ' ::
        '\n' :: (sbltags fline (src.last fline) next).1),
        (sbltags fline (src.last fline) next).2) := by
  rw [sbltags, sblsrcconv_eq]
  dsimp only
  rw [List.append_assoc]
  rfl

end Texts

section Tables

variable {tt middle later : TypeTable} {Node Other : Type}

theorem Reads.none (tt : TypeTable) (node : Node) : Reads tt tt ⟨node, none, none⟩ :=
  ⟨Grows.refl tt, rfl, rfl⟩

theorem Reads.or {first : Seen Node} {second : Seen Other} (reads : Reads tt middle first)
    (after : Reads middle later second) {Both : Type} (node : Both) :
    Reads tt later ⟨node, first.inner.or second.inner, first.tuple.or second.tuple⟩ :=
  ⟨reads.grows.trans after.grows, reads.inner.or after.grows after.inner,
    reads.tuple.or after.grows after.tuple⟩

theorem getElem?_push {Entry : Type} {table longer : List Entry} (first : Entry)
    (same : longer = table) : (longer ++ [first])[table.length]? = some first := by
  rw [same]
  exact List.getElem?_concat_length

/-- The entry for an inner type is the first one that was put in, which is the inner
type only if no other one was. -/
theorem Reads.wrapper {inner : TypeT} {below : Seen (Ty SourceRef)} (reads : Reads tt later below)
    (isInner : Represents later inner below.node) (kind : WrapperKind) :
    let found := below.inner.getD below.node
    let pushed := { later with innerTypeTable := later.innerTypeTable ++ [inner] }
    Reads tt pushed ⟨Ty.wrapper kind found, some found, below.tuple⟩ ∧
      Represents pushed ⟨.wrapper kind, tt.innerTypeTable.length, 0⟩ (.wrapper kind found) := by
  intro found pushed
  have grows : Grows later pushed :=
    ⟨List.prefix_rfl, List.prefix_rfl, List.prefix_append _ _, List.prefix_rfl, List.prefix_rfl⟩
  have first : FirstInner tt pushed (some found) := by
    have readInner := reads.inner
    cases isFirst : below.inner with
    | none =>
        rw [isFirst] at readInner
        refine ⟨inner, getElem?_push inner readInner, ?_⟩
        rw [show found = below.node from congrArg (Option.getD · below.node) isFirst]
        exact isInner.mono grows
    | some ty =>
        rw [isFirst] at readInner
        obtain ⟨t, isEntry, represents⟩ := readInner
        refine ⟨t, getElem?_of_isPrefix grows.inner isEntry, ?_⟩
        rw [show found = ty from congrArg (Option.getD · below.node) isFirst]
        exact represents.mono grows
  have tuple : FirstTuple tt pushed below.tuple := by
    have read : FirstTuple tt pushed (below.tuple.or .none) := reads.tuple.or grows rfl
    rwa [Option.or_none] at read
  obtain ⟨t, isEntry, represents⟩ := first
  refine ⟨⟨reads.grows.trans grows, ⟨t, isEntry, represents⟩, tuple⟩, rfl, t, ?_, represents⟩
  rw [entry_natCast]
  exact isEntry

theorem Reads.pushTuple {items : List IdItem} {below : Seen (Ids SourceRef)}
    (reads : Reads tt later below) (isIds : RepresentsIds later items below.node) (size : Word) :
    let found := below.tuple.getD (size, below.node)
    let pushed := { later with
      tupleTable := later.tupleTable ++ [{ sizeInBytes := size, idTable := items }] }
    Reads tt pushed ⟨(.tuple found.1 found.2 : Ty SourceRef), below.inner, some found⟩ ∧
      Represents pushed ⟨.tuple, tt.tupleTable.length, 0⟩ (.tuple found.1 found.2) := by
  intro found pushed
  have grows : Grows later pushed :=
    ⟨List.prefix_rfl, List.prefix_rfl, List.prefix_rfl, List.prefix_rfl, List.prefix_append _ _⟩
  have first : FirstTuple tt pushed (some found) := by
    have readTuple := reads.tuple
    cases isFirst : below.tuple with
    | none =>
        rw [isFirst] at readTuple
        have isFound : found = (size, below.node) :=
          congrArg (Option.getD · (size, below.node)) isFirst
        rw [isFound]
        exact ⟨_, getElem?_push _ readTuple, rfl, isIds.mono grows⟩
    | some tuple =>
        rw [isFirst] at readTuple
        obtain ⟨item, isEntry, isSize, represents⟩ := readTuple
        have isFound : found = tuple := congrArg (Option.getD · (size, below.node)) isFirst
        rw [isFound]
        exact ⟨item, getElem?_of_isPrefix grows.tuple isEntry, isSize, represents.mono grows⟩
  have inner : FirstInner tt pushed below.inner := by
    have read : FirstInner tt pushed (below.inner.or .none) := reads.inner.or grows rfl
    rwa [Option.or_none] at read
  obtain ⟨item, isEntry, isSize, represents⟩ := first
  refine ⟨⟨reads.grows.trans grows, inner, ⟨item, isEntry, isSize, represents⟩⟩, rfl, item, ?_,
    isSize, represents⟩
  rw [entry_natCast]
  exact isEntry

theorem Reads.pushAdt {below : Seen Node} (reads : Reads tt later below) (item : AdtItem)
    (node : Other) :
    let pushed := { later with adtTable := later.adtTable ++ [item] }
    Grows later pushed ∧ Reads tt pushed ⟨node, below.inner, below.tuple⟩ ∧
      entry pushed.adtTable later.adtTable.length = some item := by
  intro pushed
  have grows : Grows later pushed :=
    ⟨List.prefix_rfl, List.prefix_rfl, List.prefix_rfl, List.prefix_append _ _, List.prefix_rfl⟩
  have inner : FirstInner tt pushed (below.inner.or .none) := reads.inner.or grows rfl
  have tuple : FirstTuple tt pushed (below.tuple.or .none) := reads.tuple.or grows rfl
  rw [Option.or_none] at inner tuple
  refine ⟨grows, ⟨reads.grows.trans grows, inner, tuple⟩, ?_⟩
  rw [entry_natCast]
  exact List.getElem?_concat_length

theorem reads_module (tt : TypeTable) (name : Name) (source : SourceRef) (node : Node) :
    let pushed := { tt with
      stringsTable := tt.stringsTable ++ [name.text]
      sourceTable := tt.sourceTable ++ [source] }
    Reads tt pushed ⟨node, none, none⟩ ∧
      entry pushed.stringsTable tt.stringsTable.length = some name.text ∧
        entry pushed.sourceTable tt.sourceTable.length = some source := by
  have grows : Grows tt { tt with
      stringsTable := tt.stringsTable ++ [name.text]
      sourceTable := tt.sourceTable ++ [source] } :=
    ⟨List.prefix_append _ _, List.prefix_append _ _, List.prefix_rfl, List.prefix_rfl,
      List.prefix_rfl⟩
  refine ⟨⟨grows, rfl, rfl⟩, ?_, ?_⟩
  · rw [entry_natCast]
    exact List.getElem?_concat_length
  · rw [entry_natCast]
    exact List.getElem?_concat_length

end Tables

section Decoded

variable (uninitialized : SourceRef)

mutual

/-- The tree with the ranges that the reader makes of the text.  The number of the globals of a
module is taken for a column. -/
def decodedTy : Last → Ty Src → Ty SourceRef
  | _, .basic kind => .basic kind
  | _, .index sbl => .index sbl
  | last, .wrapper kind tof => .wrapper kind (decodedTy last tof)
  | last, .tuple size ids => .tuple size (decodedIds last ids)
  | last, .adt name src size ids =>
      .adt name (src.decoded fline last uninitialized) size (decodedIds (src.last fline) ids)
  | last, .adtPick name src size ids tags =>
      .adtPick name (src.decoded fline last uninitialized) size
        (decodedIds (src.last fline) ids)
        (decodedTags (sblids fline (src.last fline) ids).2 tags)
  | last, .module name src ids =>
      .module name ((src.decoded fline last uninitialized).column false ids.length)
        (decodedIds (src.last fline) ids)

def decodedIds : Last → Ids Src → Ids SourceRef
  | _, .nil => .nil
  | last, .cons offset name src ty next =>
      .cons offset name (src.decoded fline last uninitialized)
        (decodedTy (src.last fline) ty)
        (decodedIds (sbltype fline (src.last fline) ty).2 next)

def decodedTags : Last → Tags Src → Tags SourceRef
  | _, .nil => .nil
  | last, .cons name src size ids next =>
      .cons name (src.decoded fline last uninitialized) size (decodedIds (src.last fline) ids)
        (decodedTags (sblids fline (src.last fline) ids).2 next)
  | last, .shared name src next =>
      .shared name (src.decoded fline last uninitialized) (decodedTags (src.last fline) next)

end

end Decoded

variable {fline} (uninitialized : SourceRef)

mutual

/-- A type is read up to the end of its text. -/
theorem readType_legible : ∀ (ty : Ty Src) {last : Last} {fuel : ℕ}, LegibleTy fline last ty →
    ty.Counted → (sbltype fline last ty).1.length ≤ fuel → ∀ rest tt {fc : ReadContext},
      fc.Follows last → ∃ t later after,
        readType uninitialized fuel ⟨(sbltype fline last ty).1 ++ rest, tt, fc⟩ =
            .ok (t, ⟨rest, later, after⟩) ∧ after.Follows (sbltype fline last ty).2 ∧
          let seen := seen (decodedTy fline uninitialized last ty)
          Reads tt later seen ∧ Represents later t seen.node
  | .basic kind, last, fuel, legible, counted, enough, rest, tt, fc, follows => by
      obtain ⟨less, -, isRead⟩ := readType_letter uninitialized kind.typeClassOf_sbltname enough
      exact ⟨_, tt, fc, isRead rest tt fc, follows, Reads.none tt _, rfl⟩
  | .index sbl, last, fuel, legible, counted, enough, rest, tt, fc, follows => by
      obtain ⟨less, -, isRead⟩ := readType_letter uninitialized
        (show typeClassOf '@' = some .typeIndex from rfl) enough
      refine ⟨⟨.typeIndex, sbl, 0⟩, tt, fc, ?_, follows, Reads.none tt _, rfl, rfl⟩
      rw [sbltype, isRead, List.append_assoc, List.singleton_append]
      exact readClass_index uninitialized _ sbl rest tt
  | .wrapper kind tof, last, fuel, legible, counted, enough, rest, tt, fc, follows => by
      obtain ⟨less, enoughInner, isRead⟩ :=
        readType_letter uninitialized kind.typeClassOf_sbltname enough
      obtain ⟨inner, later, after, innerRead, afterFollows, reads, isInner⟩ :=
        readType_legible tof legible counted enoughInner rest tt follows
      obtain ⟨pushed, represents⟩ := reads.wrapper isInner kind
      refine ⟨_, _, after, ?_, afterFollows, pushed, represents⟩
      rw [sbltype, isRead]
      show (readType uninitialized less _).bind _ = _
      rw [innerRead]
      rfl
  | .tuple size ids, last, fuel, legible, counted, enough, rest, tt, fc, follows => by
      obtain ⟨less, enoughIds, isRead⟩ := readType_letter uninitialized
        (show typeClassOf 't' = some .tuple from rfl) enough
      have shorter : (sblids fline last ids).1.length ≤ less := by
        simp only [List.length_append, List.length_cons] at enoughIds
        omega
      obtain ⟨items, later, after, idsRead, afterFollows, reads, isIds⟩ :=
        readIds_legible ids legible counted shorter rest tt follows
      obtain ⟨pushed, represents⟩ := reads.pushTuple isIds size
      refine ⟨_, _, after, ?_, afterFollows, pushed, represents⟩
      rw [sbltype, isRead, List.append_assoc, List.cons_append, List.append_assoc,
        List.cons_append, readClass_tuple _ _ size counted.fits, idsRead]
      rfl
  | .adt name src size ids, last, fuel, legible, counted, enough, rest, tt, fc, follows => by
      rw [sbltype_adt] at enough ⊢
      obtain ⟨less, enoughIds, isRead⟩ := readType_letter uninitialized
        (show typeClassOf 'a' = some .adt from rfl) enough
      have shorter : (sblids fline (src.last fline) ids).1.length ≤ less := by
        simp only [List.length_append, List.length_cons] at enoughIds
        omega
      obtain ⟨behind, behindFollows, isClass⟩ :=
        readClass_adt uninitialized (readType uninitialized less) follows src
      obtain ⟨items, later, after, idsRead, afterFollows, reads, isIds⟩ :=
        readIds_legible ids legible counted shorter rest tt behindFollows
      let source := src.decoded fline last uninitialized
      let item : AdtItem := { (withIds name source size (items, ⟨rest, later, after⟩)).1 with
        tagTable := none }
      obtain ⟨grows, pushed, isEntry⟩ := reads.pushAdt item
        (seen (decodedTy fline uninitialized last (.adt name src size ids))).node
      refine ⟨⟨.adt, later.adtTable.length, 0⟩, _, after, ?_, afterFollows, pushed, rfl, item,
        isEntry, rfl, rfl, rfl, isIds.mono grows⟩
      rw [isRead]
      simp only [List.append_assoc, List.cons_append]
      rw [isClass counted.fits, idsRead]
      rfl
  | .adtPick name src size ids tags, last, fuel, legible, counted, enough, rest, tt, fc,
      follows => by
      rw [sbltype_adtPick] at enough ⊢
      obtain ⟨less, enoughParts, isRead⟩ := readType_letter uninitialized
        (show typeClassOf 'p' = some .adtPick from rfl) enough
      simp only [List.length_append, List.length_cons] at enoughParts
      have enoughIds : (sblids fline (src.last fline) ids).1.length ≤ less := by omega
      have enoughTags :
          (sbltags fline (sblids fline (src.last fline) ids).2 tags).1.length ≤ less := by omega
      obtain ⟨behind, behindFollows, isClass⟩ :=
        readClass_adtPick uninitialized (readType uninitialized less) follows src
      obtain ⟨items, middle, between, idsRead, betweenFollows, reads, isIds⟩ :=
        readIds_legible ids legible.1 counted.1 enoughIds (decimal tags.length ++ '\n' ::
          ((sbltags fline (sblids fline (src.last fline) ids).2 tags).1 ++ rest)) tt behindFollows
      obtain ⟨tagTable, later, after, tagsRead, afterFollows, tagReads, isTags⟩ :=
        readTags_legible tags legible.2 counted.2 enoughTags rest middle betweenFollows
      let source := src.decoded fline last uninitialized
      let item : AdtItem := { (withIds name source size (items, ⟨rest, later, after⟩)).1 with
        tagTable := some tagTable }
      obtain ⟨grows, pushed, isEntry⟩ := (reads.or tagReads ()).pushAdt item
        (seen (decodedTy fline uninitialized last (.adtPick name src size ids tags))).node
      refine ⟨⟨.adtPick, later.adtTable.length, 0⟩, _, after, ?_, afterFollows, pushed, rfl, item,
        tagTable, isEntry, rfl, rfl, rfl, (isIds.mono tagReads.grows).mono grows, rfl,
        isTags.mono grows⟩
      rw [isRead]
      simp only [List.append_assoc, List.cons_append]
      rw [isClass counted.1.fits, idsRead]
      show readPick _ _ (withIds name _ size (items, _)) = _
      rw [readPick, withIds, readTagTable_decimal _ _ counted.2.fits, tagsRead]
      rfl
  | .module name src ids, last, fuel, legible, counted, enough, rest, tt, fc, follows => by
      rw [sbltype_module] at enough ⊢
      obtain ⟨less, -, isRead⟩ := readType_letter uninitialized
        (show typeClassOf 'm' = some .module from rfl) enough
      obtain ⟨after, afterFollows, isClass⟩ :=
        readClass_module uninitialized (readType uninitialized less) follows src
      obtain rfl : ids = .nil := legible
      obtain ⟨pushed, isEntry, isSource⟩ := reads_module tt name
        ((src.decoded fline last uninitialized).column false (0 : ℕ))
        (decodedTy fline uninitialized last (.module name src .nil))
      refine ⟨⟨.module, tt.stringsTable.length, tt.sourceTable.length⟩, _, after, ?_,
        afterFollows, pushed, rfl, isEntry, isSource, rfl⟩
      rw [isRead]
      simp only [List.append_assoc, List.cons_append]
      rw [isClass counted.fits]
      rfl

theorem readIds_legible : ∀ (ids : Ids Src) {last : Last} {fuel : ℕ}, LegibleIds fline last ids →
    ids.Counted → (sblids fline last ids).1.length ≤ fuel → ∀ rest tt {fc : ReadContext},
      fc.Follows last → ∃ items later after,
        readIds uninitialized (readType uninitialized fuel) ids.length
            ⟨(sblids fline last ids).1 ++ rest, tt, fc⟩ = .ok (items, ⟨rest, later, after⟩) ∧
          after.Follows (sblids fline last ids).2 ∧
            let seen := seenIds (decodedIds fline uninitialized last ids)
            Reads tt later seen ∧ RepresentsIds later items seen.node
  | .nil, last, fuel, legible, counted, enough, rest, tt, fc, follows =>
      ⟨[], tt, fc, rfl, follows, Reads.none tt _, rfl⟩
  | .cons offset name src ty next, last, fuel, legible, counted, enough, rest, tt, fc,
      follows => by
      rw [sblids_cons] at enough ⊢
      simp only [List.length_append, List.length_cons] at enough
      have enoughTy : (sbltype fline (src.last fline) ty).1.length ≤ fuel := by omega
      have enoughNext :
          (sblids fline (sbltype fline (src.last fline) ty).2 next).1.length ≤ fuel := by omega
      obtain ⟨behind, behindFollows, isItem⟩ :=
        readIds_succ uninitialized (readType uninitialized fuel) follows src
      obtain ⟨t, middle, between, tyRead, betweenFollows, reads, isTy⟩ :=
        readType_legible ty legible.1 counted.2.1 enoughTy
          ('\n' :: ((sblids fline (sbltype fline (src.last fline) ty).2 next).1 ++ rest)) tt
          behindFollows
      obtain ⟨items, later, after, nextRead, afterFollows, nextReads, isNext⟩ :=
        readIds_legible next legible.2 counted.2.2 enoughNext rest middle betweenFollows
      let source := src.decoded fline last uninitialized
      let item : IdItem :=
        { offset := (offset.val % 2 ^ 32).toNat, name := name.text, source, type := t }
      refine ⟨item :: items, later, after, ?_, afterFollows, reads.or nextReads _, item, items, rfl,
        rfl, rfl, rfl, isTy.mono nextReads.grows, isNext⟩
      rw [Ids.length]
      simp only [List.append_assoc, List.cons_append]
      rw [isItem, tyRead]
      show (readIds _ _ next.length _).map _ = _
      rw [nextRead]
      rfl

theorem readTags_legible : ∀ (tags : Tags Src) {last : Last} {fuel : ℕ},
    LegibleTags fline last tags → tags.Counted → (sbltags fline last tags).1.length ≤ fuel →
      ∀ rest tt {fc : ReadContext}, fc.Follows last → ∃ items later after,
        readTags uninitialized (readType uninitialized fuel) tags.length
            ⟨(sbltags fline last tags).1 ++ rest, tt, fc⟩ = .ok (items, ⟨rest, later, after⟩) ∧
          after.Follows (sbltags fline last tags).2 ∧
            let seen := seenTags (decodedTags fline uninitialized last tags)
            Reads tt later seen ∧ RepresentsTags later items seen.node
  | .nil, last, fuel, legible, counted, enough, rest, tt, fc, follows =>
      ⟨[], tt, fc, rfl, follows, Reads.none tt _, rfl⟩
  | .cons name src size ids next, last, fuel, legible, counted, enough, rest, tt, fc,
      follows => by
      rw [sbltags_cons] at enough ⊢
      simp only [List.length_append, List.length_cons] at enough
      have enoughIds : (sblids fline (src.last fline) ids).1.length ≤ fuel := by omega
      have enoughNext :
          (sbltags fline (sblids fline (src.last fline) ids).2 next).1.length ≤ fuel := by omega
      obtain ⟨behind, behindFollows, isTag⟩ :=
        createTag_size uninitialized (readType uninitialized fuel) follows legible.1
      obtain ⟨items, middle, between, idsRead, betweenFollows, reads, isIds⟩ :=
        readIds_legible ids legible.2.1 counted.2.1 enoughIds
          ((sbltags fline (sblids fline (src.last fline) ids).2 next).1 ++ rest) tt behindFollows
      obtain ⟨tags, later, after, nextRead, afterFollows, nextReads, isNext⟩ :=
        readTags_legible next legible.2.2 counted.2.2 enoughNext rest middle betweenFollows
      let source := src.decoded fline last uninitialized
      refine ⟨(withIds name source size (items, ⟨[], later, after⟩)).1 :: tags, later, after, ?_,
        afterFollows, reads.or nextReads _, _, tags, rfl, rfl, rfl, rfl,
        isIds.mono nextReads.grows, isNext⟩
      rw [Tags.length]
      simp only [List.append_assoc, List.cons_append]
      rw [readTags_succ _ _ _ _ _ (notMem_decimal (by decide) rfl), isTag counted.2.1.fits,
        idsRead]
      show (readTags _ _ next.length _).map _ = _
      rw [withIds, nextRead]
      rfl
  | .shared name src next, last, fuel, legible, counted, enough, rest, tt, fc, follows => by
      rw [sbltags_shared] at enough ⊢
      simp only [List.length_append, List.length_cons] at enough
      have enoughNext : (sbltags fline (src.last fline) next).1.length ≤ fuel := by omega
      obtain ⟨behind, behindFollows, isTag⟩ :=
        createTag_shared uninitialized (readType uninitialized fuel) follows legible.1
      obtain ⟨tags, later, after, nextRead, afterFollows, nextReads, isNext⟩ :=
        readTags_legible next legible.2 counted.2 enoughNext rest tt behindFollows
      let tag : NameSourceSize := ⟨name.text, src.decoded fline last uninitialized, none, []⟩
      refine ⟨tag :: tags, later, after, ?_, afterFollows, ⟨nextReads.grows, nextReads.inner,
        nextReads.tuple⟩, tag, tags, rfl, rfl, rfl, rfl, rfl, isNext⟩
      rw [Tags.length]
      simp only [List.append_assoc, List.cons_append]
      have line := @readTags_succ uninitialized (readType uninitialized fuel) fline last fc
        next.length name src [] List.not_mem_nil ((sbltags fline (src.last fline) next).1 ++ rest)
        tt
      rw [List.nil_append] at line
      rw [line, isTag]
      show (readTags _ _ next.length _).map _ = _
      rw [nextRead]
      rfl

end

/-- No number can be read from the first line of the text. -/
def Unnumbered (text : List Char) : Prop :=
  ∀ first ∈ text.head?, first = '\n' ∨
    (first.isDigit = false ∧ isSpace first = false ∧ first ≠ '-' ∧ first ≠ '+')

theorem stoi_unnumbered {first : Char} (noDigit : first.isDigit = false)
    (noSpace : isSpace first = false) (noSign : first ≠ '-' ∧ first ≠ '+') (text : List Char) :
    stoi (first :: text) = .error .invalidArgument := by
  have noNumber : readInt (first :: text) = none := by
    have noDigits := readNat_of_ends (ends_cons text noDigit)
    unfold readInt
    split
    · rename_i isMinus
      exact absurd (List.cons_eq_cons.mp isMinus).1 noSign.1
    · rename_i isPlus
      exact absurd (List.cons_eq_cons.mp isPlus).1 noSign.2
    · rw [noDigits, Option.map_none]
  rw [stoi, List.dropWhile_cons_of_neg (Bool.eq_false_iff.mp noSpace), noNumber]

theorem readUntilFrom_prefix (delimiter : Char) (part text : List Char) :
    (readUntilFrom delimiter part text).1 = [] ∨
      part <+: (readUntilFrom delimiter part text).1 := by
  induction text generalizing part with
  | nil => exact Or.inl rfl
  | cons character text ih =>
      rw [readUntilFrom]
      split
      · exact Or.inr List.prefix_rfl
      · exact (ih _).imp_right (List.prefix_append part [character]).trans

theorem readIdTable_unnumbered (readTy : TypeReader) {text : List Char}
    (unnumbered : Unnumbered text) (tt : TypeTable) (fc : ReadContext) :
    ∃ error, readIdTable uninitialized readTy ⟨text, tt, fc⟩ = .error error := by
  have noNumber : stoi (readUntil '\n' text).1 = .error .invalidArgument := by
    cases text with
    | nil => rfl
    | cons first text =>
        rw [readUntil, readUntilFrom]
        rcases unnumbered first rfl with isNewline | ⟨noDigit, noSpace, noSign⟩
        · rw [if_pos isNewline]
          rfl
        · have noNewline : first ≠ '\n' := by
            rintro rfl
            cases noSpace
          rw [if_neg noNewline]
          rcases readUntilFrom_prefix '\n' [first] text with isNil | ⟨line, isLine⟩
          · rw [List.nil_append, isNil]
            rfl
          · rw [List.nil_append, ← isLine]
            exact stoi_unnumbered noDigit noSpace noSign line
  refine ⟨.invalidArgument, ?_⟩
  rw [readIdTable, Reader.getAsStringUntil]
  dsimp only
  rw [noNumber]
  rfl

/-- The text is at its end or at the end of a line. -/
def AtLineEnd (text : List Char) : Prop :=
  ∀ first ∈ text.head?, first = '\n'

theorem unnumbered_name (name : Name) (text : List Char) : Unnumbered (name.text ++ text) := by
  intro first isFirst
  cases isName : name.text with
  | nil => exact absurd isName name.nonempty
  | cons other others =>
      rw [isName] at isFirst
      apply Or.inr
      apply name.noNumber
      rw [isName]
      exact isFirst

theorem unnumbered_tags (last : Last) (tags : Tags Src) {rest : List Char}
    (atEnd : AtLineEnd rest) : Unnumbered ((sbltags fline last tags).1 ++ rest) := by
  cases tags with
  | nil => exact fun first isFirst => Or.inl (atEnd first isFirst)
  | cons name src size ids next =>
      rw [sbltags_cons]
      dsimp only
      rw [List.append_assoc]
      exact unnumbered_name name _
  | shared name src next =>
      rw [sbltags_shared, List.append_assoc]
      exact unnumbered_name name _

/-- If something is read at all, then not up to the rest. -/
def LeavesText (rest : List Char) (result : Except ReadError (TypeT × Reader)) : Prop :=
  ∀ found, result = .ok found →
    ∃ character text, character ≠ '\n' ∧ found.2.text = character :: (text ++ rest)

theorem leavesText_error {rest : List Char} {result : Except ReadError (TypeT × Reader)}
    (failed : ∃ error, result = .error error) : LeavesText rest result := by
  obtain ⟨error, isError⟩ := failed
  intro found isFound
  rw [isError] at isFound
  cases isFound

theorem decimal_append_eq_cons (value : ℤ) (text : List Char) :
    ∃ character more, character ≠ '\n' ∧ decimal value ++ text = character :: more := by
  cases isDecimal : decimal value with
  | nil => exact absurd isDecimal (decimal_ne_nil value)
  | cons character digits =>
      refine ⟨character, digits ++ text, ?_, rfl⟩
      rintro rfl
      have member : '\n' ∈ decimal value := isDecimal ▸ List.mem_cons_self
      exact notMem_decimal (by decide) rfl member

mutual

theorem readType_illegible : ∀ (ty : Ty Src) {last : Last} {fuel : ℕ},
    ¬ LegibleTy fline last ty → ty.Counted → (sbltype fline last ty).1.length ≤ fuel →
      ∀ {rest : List Char}, AtLineEnd rest → ∀ tt {fc : ReadContext}, fc.Follows last →
        LeavesText rest (readType uninitialized fuel ⟨(sbltype fline last ty).1 ++ rest, tt, fc⟩)
  | .basic kind, last, fuel, illegible, counted, enough, rest, atEnd, tt, fc, follows =>
      absurd trivial illegible
  | .index sbl, last, fuel, illegible, counted, enough, rest, atEnd, tt, fc, follows =>
      absurd trivial illegible
  | .wrapper kind tof, last, fuel, illegible, counted, enough, rest, atEnd, tt, fc, follows => by
      obtain ⟨less, enoughInner, isRead⟩ :=
        readType_letter uninitialized kind.typeClassOf_sbltname enough
      have leaves := readType_illegible tof illegible counted enoughInner atEnd tt follows
      intro found isFound
      rw [sbltype, isRead] at isFound
      change (readType uninitialized less _).bind _ = _ at isFound
      cases innerRead : readType uninitialized less
          ⟨(sbltype fline last tof).1 ++ rest, tt, fc⟩ with
      | error error =>
          rw [innerRead] at isFound
          cases isFound
      | ok inner =>
          rw [innerRead] at isFound
          cases isFound
          exact leaves inner innerRead
  | .tuple size ids, last, fuel, illegible, counted, enough, rest, atEnd, tt, fc, follows => by
      obtain ⟨less, enoughIds, isRead⟩ := readType_letter uninitialized
        (show typeClassOf 't' = some .tuple from rfl) enough
      have shorter : (sblids fline last ids).1.length ≤ less := by
        simp only [List.length_append, List.length_cons] at enoughIds
        omega
      obtain ⟨error, isError⟩ := readIds_illegible ids illegible counted shorter rest tt follows
      refine leavesText_error ⟨error, ?_⟩
      rw [sbltype, isRead, List.append_assoc, List.cons_append, List.append_assoc,
        List.cons_append, readClass_tuple _ _ size counted.fits, isError]
      rfl
  | .adt name src size ids, last, fuel, illegible, counted, enough, rest, atEnd, tt, fc,
      follows => by
      rw [sbltype_adt] at enough ⊢
      obtain ⟨less, enoughIds, isRead⟩ := readType_letter uninitialized
        (show typeClassOf 'a' = some .adt from rfl) enough
      have shorter : (sblids fline (src.last fline) ids).1.length ≤ less := by
        simp only [List.length_append, List.length_cons] at enoughIds
        omega
      obtain ⟨behind, behindFollows, isClass⟩ :=
        readClass_adt uninitialized (readType uninitialized less) follows src
      obtain ⟨error, isError⟩ :=
        readIds_illegible ids illegible counted shorter rest tt behindFollows
      refine leavesText_error ⟨error, ?_⟩
      rw [isRead]
      simp only [List.append_assoc, List.cons_append]
      rw [isClass counted.fits, isError]
      rfl
  | .adtPick name src size ids tags, last, fuel, illegible, counted, enough, rest, atEnd, tt, fc,
      follows => by
      rw [sbltype_adtPick] at enough ⊢
      obtain ⟨less, enoughParts, isRead⟩ := readType_letter uninitialized
        (show typeClassOf 'p' = some .adtPick from rfl) enough
      simp only [List.length_append, List.length_cons] at enoughParts
      have enoughIds : (sblids fline (src.last fline) ids).1.length ≤ less := by omega
      have enoughTags :
          (sbltags fline (sblids fline (src.last fline) ids).2 tags).1.length ≤ less := by omega
      obtain ⟨behind, behindFollows, isClass⟩ :=
        readClass_adtPick uninitialized (readType uninitialized less) follows src
      let tagText := decimal tags.length ++ '\n' ::
        ((sbltags fline (sblids fline (src.last fline) ids).2 tags).1 ++ rest)
      apply leavesText_error
      rw [isRead]
      simp only [List.append_assoc, List.cons_append]
      rw [isClass counted.1.fits]
      by_cases legible : LegibleIds fline (src.last fline) ids
      · obtain ⟨items, middle, between, idsRead, betweenFollows, -, -⟩ :=
          readIds_legible uninitialized ids legible counted.1 enoughIds tagText tt behindFollows
        obtain ⟨error, isError⟩ := readTags_illegible tags (fun also => illegible ⟨legible, also⟩)
          counted.2 enoughTags atEnd middle betweenFollows
        refine ⟨error, ?_⟩
        rw [idsRead]
        show readPick _ _ (withIds name _ size (items, _)) = _
        rw [readPick, withIds, readTagTable_decimal _ _ counted.2.fits, isError]
        rfl
      · obtain ⟨error, isError⟩ :=
          readIds_illegible ids legible counted.1 enoughIds tagText tt behindFollows
        rw [isError]
        exact ⟨error, rfl⟩
  | .module name src ids, last, fuel, illegible, counted, enough, rest, atEnd, tt, fc, follows => by
      rw [sbltype_module] at enough ⊢
      obtain ⟨less, -, isRead⟩ := readType_letter uninitialized
        (show typeClassOf 'm' = some .module from rfl) enough
      obtain ⟨after, afterFollows, isClass⟩ :=
        readClass_module uninitialized (readType uninitialized less) follows src
      intro found isFound
      rw [isRead] at isFound
      simp only [List.append_assoc, List.cons_append] at isFound
      rw [isClass counted.fits] at isFound
      cases isFound
      cases ids with
      | nil => exact absurd rfl illegible
      | cons offset idName idSrc ty next =>
          rw [sblids_cons]
          dsimp only
          obtain ⟨character, more, noNewline, isText⟩ := decimal_append_eq_cons offset _
          exact ⟨character, more, noNewline, congrArg (· ++ rest) isText⟩

theorem readIds_illegible : ∀ (ids : Ids Src) {last : Last} {fuel : ℕ},
    ¬ LegibleIds fline last ids → ids.Counted → (sblids fline last ids).1.length ≤ fuel →
      ∀ rest tt {fc : ReadContext}, fc.Follows last → ∃ error,
        readIds uninitialized (readType uninitialized fuel) ids.length
          ⟨(sblids fline last ids).1 ++ rest, tt, fc⟩ = .error error
  | .nil, last, fuel, illegible, counted, enough, rest, tt, fc, follows =>
      absurd trivial illegible
  | .cons offset name src ty next, last, fuel, illegible, counted, enough, rest, tt, fc,
      follows => by
      rw [sblids_cons] at enough ⊢
      simp only [List.length_append, List.length_cons] at enough
      have enoughTy : (sbltype fline (src.last fline) ty).1.length ≤ fuel := by omega
      have enoughNext :
          (sblids fline (sbltype fline (src.last fline) ty).2 next).1.length ≤ fuel := by omega
      obtain ⟨behind, behindFollows, isItem⟩ :=
        readIds_succ uninitialized (readType uninitialized fuel) follows src
      let nextText :=
        '\n' :: ((sblids fline (sbltype fline (src.last fline) ty).2 next).1 ++ rest)
      rw [Ids.length]
      simp only [List.append_assoc, List.cons_append]
      rw [isItem]
      by_cases legible : LegibleTy fline (src.last fline) ty
      · obtain ⟨t, middle, between, tyRead, betweenFollows, -, -⟩ :=
          readType_legible uninitialized ty legible counted.2.1 enoughTy nextText tt behindFollows
        obtain ⟨error, isError⟩ := readIds_illegible next (fun also => illegible ⟨legible, also⟩)
          counted.2.2 enoughNext rest middle betweenFollows
        refine ⟨error, ?_⟩
        rw [tyRead]
        show (readIds _ _ next.length _).map _ = _
        rw [isError]
        rfl
      · have atEnd : AtLineEnd nextText := by
          intro first isFirst
          cases isFirst
          rfl
        have leaves := readType_illegible ty legible counted.2.1 enoughTy atEnd tt behindFollows
        cases tyRead : readType uninitialized fuel
            ⟨(sbltype fline (src.last fline) ty).1 ++ nextText, tt, behind⟩ with
        | error error => exact ⟨error, rfl⟩
        | ok found =>
            obtain ⟨character, text, noNewline, isText⟩ := leaves found tyRead
            refine ⟨.runtime "Invalid ID table item", ?_⟩
            show readIdsBehind _ _ _ _ _ _ found = _
            rw [readIdsBehind, getNewline_of_ne isText noNewline]
            rfl

theorem readTags_illegible : ∀ (tags : Tags Src) {last : Last} {fuel : ℕ},
    ¬ LegibleTags fline last tags → tags.Counted → (sbltags fline last tags).1.length ≤ fuel →
      ∀ {rest : List Char}, AtLineEnd rest → ∀ tt {fc : ReadContext}, fc.Follows last → ∃ error,
        readTags uninitialized (readType uninitialized fuel) tags.length
          ⟨(sbltags fline last tags).1 ++ rest, tt, fc⟩ = .error error
  | .nil, last, fuel, illegible, counted, enough, rest, atEnd, tt, fc, follows =>
      absurd trivial illegible
  | .cons name src size ids next, last, fuel, illegible, counted, enough, rest, atEnd, tt, fc,
      follows => by
      rw [sbltags_cons] at enough ⊢
      simp only [List.length_append, List.length_cons] at enough
      have enoughIds : (sblids fline (src.last fline) ids).1.length ≤ fuel := by omega
      have enoughNext :
          (sbltags fline (sblids fline (src.last fline) ids).2 next).1.length ≤ fuel := by omega
      rw [Tags.length]
      simp only [List.append_assoc, List.cons_append]
      rw [readTags_succ _ _ _ _ _ (notMem_decimal (by decide) rfl)]
      by_cases written : FileWritten fline last src
      · rw [createTag_size_file _ _ written]
        exact ⟨_, rfl⟩
      · obtain ⟨behind, behindFollows, isTag⟩ :=
          createTag_size uninitialized (readType uninitialized fuel) follows written
        rw [isTag counted.2.1.fits]
        let nextText := (sbltags fline (sblids fline (src.last fline) ids).2 next).1 ++ rest
        by_cases legible : LegibleIds fline (src.last fline) ids
        · obtain ⟨items, middle, between, idsRead, betweenFollows, -, -⟩ :=
            readIds_legible uninitialized ids legible counted.2.1 enoughIds nextText tt
              behindFollows
          obtain ⟨error, isError⟩ := readTags_illegible next
            (fun also => illegible ⟨written, legible, also⟩) counted.2.2 enoughNext atEnd middle
            betweenFollows
          refine ⟨error, ?_⟩
          rw [idsRead]
          show (readTags _ _ next.length _).map _ = _
          rw [withIds, isError]
          rfl
        · obtain ⟨error, isError⟩ :=
            readIds_illegible ids legible counted.2.1 enoughIds nextText tt behindFollows
          rw [isError]
          exact ⟨error, rfl⟩
  | .shared name src next, last, fuel, illegible, counted, enough, rest, atEnd, tt, fc,
      follows => by
      rw [sbltags_shared] at enough ⊢
      simp only [List.length_append, List.length_cons] at enough
      have enoughNext : (sbltags fline (src.last fline) next).1.length ≤ fuel := by omega
      rw [Tags.length]
      simp only [List.append_assoc, List.cons_append]
      have line := @readTags_succ uninitialized (readType uninitialized fuel) fline last fc
        next.length name src [] List.not_mem_nil ((sbltags fline (src.last fline) next).1 ++ rest)
        tt
      rw [List.nil_append] at line
      rw [line]
      by_cases written : FileWritten fline last src
      · obtain ⟨error, isError⟩ := createTag_shared_file uninitialized
          (readType uninitialized fuel) written name.text fun fc =>
            readIdTable_unnumbered uninitialized (readType uninitialized fuel)
              (unnumbered_tags (src.last fline) next atEnd) tt fc
        rw [isError]
        exact ⟨error, rfl⟩
      · obtain ⟨behind, behindFollows, isTag⟩ :=
          createTag_shared uninitialized (readType uninitialized fuel) follows written
        obtain ⟨error, isError⟩ := readTags_illegible next
          (fun also => illegible ⟨written, also⟩) counted.2 enoughNext atEnd tt behindFollows
        refine ⟨error, ?_⟩
        rw [isTag]
        show (readTags _ _ next.length _).map _ = _
        rw [isError]
        rfl

end

section Ignored

variable {Source Other : Type} (f : Source → Other)

mutual

theorem Ty.map_ignore : ∀ ty : Ty Source, (ty.map f).map ignore = ty.map ignore
  | .basic _ => rfl
  | .index _ => rfl
  | .wrapper kind tof => congrArg (Ty.wrapper kind) tof.map_ignore
  | .tuple size ids => congrArg (Ty.tuple size) ids.map_ignore
  | .adt name _ size ids => congrArg (Ty.adt name () size) ids.map_ignore
  | .adtPick name _ size ids tags =>
      congrArg₂ (Ty.adtPick name () size) ids.map_ignore tags.map_ignore
  | .module name _ ids => congrArg (Ty.module name ()) ids.map_ignore

theorem Ids.map_ignore : ∀ ids : Ids Source, (ids.map f).map ignore = ids.map ignore
  | .nil => rfl
  | .cons offset name _ ty next =>
      congrArg₂ (Ids.cons offset name ()) ty.map_ignore next.map_ignore

theorem Tags.map_ignore : ∀ tags : Tags Source, (tags.map f).map ignore = tags.map ignore
  | .nil => rfl
  | .cons name _ size ids next =>
      congrArg₂ (Tags.cons name () size) ids.map_ignore next.map_ignore
  | .shared name _ next => congrArg (Tags.shared name ()) next.map_ignore

end

end Ignored

mutual

/-- The tree that is decoded is the one that was written, but for the ranges. -/
theorem decodedTy_ignore : ∀ (ty : Ty Src) (last : Last),
    (decodedTy fline uninitialized last ty).map ignore = ty.map ignore
  | .basic _, _ => rfl
  | .index _, _ => rfl
  | .wrapper kind tof, last => congrArg (Ty.wrapper kind) (decodedTy_ignore tof last)
  | .tuple size ids, last => congrArg (Ty.tuple size) (decodedIds_ignore ids last)
  | .adt name _ size ids, _ => congrArg (Ty.adt name () size) (decodedIds_ignore ids _)
  | .adtPick name _ size ids tags, _ =>
      congrArg₂ (Ty.adtPick name () size) (decodedIds_ignore ids _) (decodedTags_ignore tags _)
  | .module name _ ids, _ => congrArg (Ty.module name ()) (decodedIds_ignore ids _)

theorem decodedIds_ignore : ∀ (ids : Ids Src) (last : Last),
    (decodedIds fline uninitialized last ids).map ignore = ids.map ignore
  | .nil, _ => rfl
  | .cons offset name _ ty next, _ =>
      congrArg₂ (Ids.cons offset name ()) (decodedTy_ignore ty _) (decodedIds_ignore next _)

theorem decodedTags_ignore : ∀ (tags : Tags Src) (last : Last),
    (decodedTags fline uninitialized last tags).map ignore = tags.map ignore
  | .nil, _ => rfl
  | .cons name _ size ids next, _ =>
      congrArg₂ (Tags.cons name () size) (decodedIds_ignore ids _) (decodedTags_ignore next _)
  | .shared name _ next, _ => congrArg (Tags.shared name ()) (decodedTags_ignore next _)

end

mutual

/-- Every range is written with a file, no ADT with a tag, and a module without globals and with
a range that ends in column 0. -/
def IntactTy (fline : ℤ → FileLine) : Last → Ty Src → Prop
  | _, .basic _ => True
  | _, .index _ => True
  | last, .wrapper _ tof => IntactTy fline last tof
  | last, .tuple _ ids => IntactIds fline last ids
  | last, .adt _ src _ ids => FileWritten fline last src ∧ IntactIds fline (src.last fline) ids
  | last, .adtPick _ src _ ids tags =>
      FileWritten fline last src ∧ IntactIds fline (src.last fline) ids ∧ tags = .nil
  | last, .module _ src ids => FileWritten fline last src ∧ column src.stop = 0 ∧ ids = .nil

def IntactIds (fline : ℤ → FileLine) : Last → Ids Src → Prop
  | _, .nil => True
  | last, .cons _ _ src ty next =>
      FileWritten fline last src ∧ IntactTy fline (src.last fline) ty ∧
        IntactIds fline (sbltype fline (src.last fline) ty).2 next

end

/-- A range is decoded, whatever the variable had, when there is a file in its text. -/
theorem decoded_eq_iff {last : Last} {src : Src} :
    (∀ uninitialized, src.decoded fline last uninitialized = src.ref fline) ↔
      FileWritten fline last src := by
  constructor
  · intro decoded
    by_contra notWritten
    have other := decoded ⟨0, 0, 0, (src.stopLine fline).file + 1, 0, 0⟩
    rw [Src.decoded, if_neg notWritten] at other
    exact (Int.lt_succ _).ne' (congrArg SourceRef.endSourceId other)
  · intro written uninitialized
    exact if_pos written

/-- The column behind the range of a module without globals is 0. -/
theorem decoded_module_iff {last : Last} {src : Src} :
    (∀ uninitialized, (src.decoded fline last uninitialized).column false 0 = src.ref fline) ↔
      FileWritten fline last src ∧ column src.stop = 0 := by
  constructor
  · intro decoded
    have isZero : column src.stop = 0 :=
      (congrArg SourceRef.endColumn (decoded ⟨0, 0, 0, 0, 0, 0⟩)).symm
    refine ⟨?_, isZero⟩
    by_contra notWritten
    have other := decoded ⟨0, 0, 0, (src.stopLine fline).file + 1, 0, 0⟩
    rw [Src.decoded, if_neg notWritten] at other
    exact (Int.lt_succ _).ne' (congrArg SourceRef.endSourceId other)
  · rintro ⟨written, isZero⟩ uninitialized
    rw [Src.decoded, if_pos written, Src.ref, isZero]
    rfl

/-- The ranges of tags are written without a file, and the ends of such ranges have none. -/
theorem not_decodedTags {last : Last} {tags : Tags Src} (legible : LegibleTags fline last tags)
    (decoded : ∀ uninitialized,
      decodedTags fline uninitialized last tags = tags.map (Src.ref fline)) : tags = .nil := by
  cases tags with
  | nil => rfl
  | cons name src size ids next =>
      have written := decoded_eq_iff.mp fun uninitialized =>
        (Tags.cons.inj (decoded uninitialized)).2.1
      exact absurd written legible.1
  | shared name src next =>
      have written := decoded_eq_iff.mp fun uninitialized =>
        (Tags.shared.inj (decoded uninitialized)).2.1
      exact absurd written legible.1

mutual

/-- The ranges are decoded, whatever the variable had. -/
theorem intactTy_iff : ∀ (ty : Ty Src) (last : Last),
    IntactTy fline last ty ↔ LegibleTy fline last ty ∧
      ∀ uninitialized, decodedTy fline uninitialized last ty = ty.map (Src.ref fline)
  | .basic _, _ => iff_of_true trivial ⟨trivial, fun _ => rfl⟩
  | .index _, _ => iff_of_true trivial ⟨trivial, fun _ => rfl⟩
  | .wrapper kind tof, last => by
      simp only [IntactTy, LegibleTy, decodedTy, Ty.map, Ty.wrapper.injEq, true_and]
      exact intactTy_iff tof last
  | .tuple size ids, last => by
      simp only [IntactTy, LegibleTy, decodedTy, Ty.map, Ty.tuple.injEq, true_and]
      exact intactIds_iff ids last
  | .adt name src size ids, last => by
      simp only [IntactTy, LegibleTy, decodedTy, Ty.map, Ty.adt.injEq, true_and, forall_and]
      rw [intactIds_iff ids, decoded_eq_iff]
      exact and_left_comm
  | .adtPick name src size ids tags, last => by
      simp only [IntactTy, LegibleTy, decodedTy, Ty.map, Ty.adtPick.injEq, true_and, forall_and]
      rw [intactIds_iff ids, decoded_eq_iff]
      constructor
      · rintro ⟨written, ⟨legible, decoded⟩, rfl⟩
        exact ⟨⟨legible, trivial⟩, written, decoded, fun _ => rfl⟩
      · rintro ⟨⟨legible, tagsLegible⟩, written, decoded, tagsDecoded⟩
        exact ⟨written, ⟨legible, decoded⟩, not_decodedTags tagsLegible tagsDecoded⟩
  | .module name src ids, last => by
      simp only [IntactTy, LegibleTy, decodedTy, Ty.map, Ty.module.injEq, true_and, forall_and]
      constructor
      · rintro ⟨written, isZero, rfl⟩
        exact ⟨rfl, decoded_module_iff.mpr ⟨written, isZero⟩, fun _ => rfl⟩
      · rintro ⟨rfl, decoded, -⟩
        obtain ⟨written, isZero⟩ := decoded_module_iff.mp decoded
        exact ⟨written, isZero, rfl⟩

theorem intactIds_iff : ∀ (ids : Ids Src) (last : Last),
    IntactIds fline last ids ↔ LegibleIds fline last ids ∧
      ∀ uninitialized, decodedIds fline uninitialized last ids = ids.map (Src.ref fline)
  | .nil, _ => iff_of_true trivial ⟨trivial, fun _ => rfl⟩
  | .cons offset name src ty next, last => by
      simp only [IntactIds, LegibleIds, decodedIds, Ids.map, Ids.cons.injEq, true_and, forall_and]
      rw [intactTy_iff ty, intactIds_iff next, decoded_eq_iff, and_and_and_comm]
      exact and_left_comm

end

/-- Whatever comes behind it and whatever the variable of a range had, the text of the type is
read up to its end, what the tables then hold is the tree with its ranges, and it has the name of
the tree. -/
def Decodes (fline : ℤ → FileLine) (last : Last) (ty : Ty Src) (tt : TypeTable)
    (fc : ReadContext) : Prop :=
  ∀ uninitialized rest, let text := (sbltype fline last ty).1 ++ rest
    let tree := ty.map (Src.ref fline)
    ∃ t later after,
      readType uninitialized text.length ⟨text, tt, fc⟩ = .ok (t, ⟨rest, later, after⟩) ∧
        after.Follows (sbltype fline last ty).2 ∧ Represents later t tree ∧
          ∀ fuel name, tree.render (later.typeName fuel) = some name →
            later.toString (fuel + tree.nodes) t = some name

section Decoding

variable {last : Last} {ty : Ty Src} {tt : TypeTable} {fc : ReadContext}

theorem legible_of_decodes (counted : ty.Counted) (follows : fc.Follows last)
    (decodes : Decodes fline last ty tt fc) : LegibleTy fline last ty := by
  by_contra illegible
  obtain ⟨t, later, after, isRead, -⟩ := decodes ⟨0, 0, 0, 0, 0, 0⟩ []
  have atEnd : AtLineEnd [] := by
    rintro first ⟨⟩
  have enough : (sbltype fline last ty).1.length ≤ ((sbltype fline last ty).1 ++ []).length := by
    rw [List.append_nil]
  have leaves := readType_illegible ⟨0, 0, 0, 0, 0, 0⟩ ty illegible counted enough atEnd tt follows
  obtain ⟨character, text, -, isText⟩ := leaves _ isRead
  cases isText

/-- The tables hold the tree of a legible type when its ranges are decoded and it is simple. -/
theorem seen_eq_iff (uninitialized : SourceRef) :
    (seen (decodedTy fline uninitialized last ty)).node = ty.map (Src.ref fline) ↔
      decodedTy fline uninitialized last ty = ty.map (Src.ref fline) ∧ ty.Simple := by
  constructor
  · intro isSeen
    have simple : (decodedTy fline uninitialized last ty).Simple := by
      apply Ty.simple_of_seen
      calc
        (seen (decodedTy fline uninitialized last ty)).node.map ignore =
            (ty.map (Src.ref fline)).map ignore := congrArg _ isSeen
        _ = ty.map ignore := ty.map_ignore _
        _ = (decodedTy fline uninitialized last ty).map ignore :=
          (decodedTy_ignore uninitialized ty last).symm
    have decoded := simple.seen.symm.trans isSeen
    rw [decoded, Ty.simple_map_iff] at simple
    exact ⟨decoded, simple⟩
  · rintro ⟨decoded, simple⟩
    rw [decoded]
    exact ((Ty.simple_map_iff _ ty).mpr simple).seen

/-- A type is decoded exactly when it is intact and simple. -/
theorem sbltype_decodes_iff (counted : ty.Counted) (follows : fc.Follows last) :
    Decodes fline last ty tt fc ↔ IntactTy fline last ty ∧ ty.Simple := by
  have enough : ∀ rest,
      (sbltype fline last ty).1.length ≤ ((sbltype fline last ty).1 ++ rest).length := by
    intro rest
    rw [List.length_append]
    exact Nat.le_add_right _ _
  constructor
  · intro decodes
    have legible := legible_of_decodes counted follows decodes
    have isSeen : ∀ uninitialized, decodedTy fline uninitialized last ty =
        ty.map (Src.ref fline) ∧ ty.Simple := by
      intro uninitialized
      obtain ⟨t, later, after, isRead, -, represents, -⟩ := decodes uninitialized []
      obtain ⟨seenT, seenLater, seenAfter, seenRead, -, -, isSeen⟩ :=
        readType_legible uninitialized ty legible counted (enough []) [] tt follows
      rw [seenRead] at isRead
      cases isRead
      exact (seen_eq_iff uninitialized).mp (isSeen.unique represents)
    refine ⟨(intactTy_iff ty last).mpr ⟨legible, fun uninitialized => ?_⟩, ?_⟩
    · exact (isSeen uninitialized).1
    · exact (isSeen ⟨0, 0, 0, 0, 0, 0⟩).2
  · rintro ⟨intact, simple⟩ uninitialized rest
    obtain ⟨legible, decoded⟩ := (intactTy_iff ty last).mp intact
    obtain ⟨t, later, after, isRead, afterFollows, -, isSeen⟩ :=
      readType_legible uninitialized ty legible counted (enough rest) rest tt follows
    rw [(seen_eq_iff uninitialized).mpr ⟨decoded uninitialized, simple⟩] at isSeen
    exact ⟨t, later, after, isRead, afterFollows, isSeen, fun fuel name => isSeen.toString⟩

end Decoding

def nameX : Name where
  text := ['x']
  nonempty := by decide
  plain := by
    rintro character (_ | ⟨_, ⟨⟩⟩)
    decide
  noNumber := by
    rintro first ⟨⟩
    decide

/-- Lines from 5 on are in the second file. -/
def twoFiles (line : ℤ) : FileLine :=
  if line < 5 then .ofBytes 1 3 else .ofBytes 2 1

/-- An ADT of the first file with a list in the second one. -/
theorem sbltype_decodes_adt :
    Decodes twoFiles ⟨0, 0⟩ (.adt nameX ⟨3073, 3075⟩ ⟨4, by decide⟩
      (.cons ⟨0, by decide⟩ nameX ⟨5121, 5122⟩ (.wrapper .list (.tuple ⟨4, by decide⟩
        (.cons ⟨0, by decide⟩ nameX ⟨3080, 3081⟩ (.basic .int) .nil))) .nil))
      ⟨[], [], [], [], [], []⟩ ⟨0, 0, 0⟩ := by
  refine (sbltype_decodes_iff ?_ ⟨rfl, rfl⟩).mpr ⟨⟨?_, ⟨?_, ⟨?_, trivial, trivial⟩, trivial⟩⟩, ?_⟩
  · exact ⟨by decide, ⟨by decide, trivial, trivial⟩, trivial⟩
  · decide
  · decide
  · decide
  · exact ⟨⟨rfl, rfl, trivial, trivial⟩, trivial⟩

/-- An array of arrays is read as an array of what is in the inner one. -/
theorem innerArray_lost :
    let fline : ℤ → FileLine := fun _ => ⟨0, 0, by decide, by decide⟩
    ¬ Decodes fline ⟨0, 0⟩ (.wrapper .array (.wrapper .array (.basic .int)))
      ⟨[], [], [], [], [], []⟩ ⟨0, 0, 0⟩ := by
  intro fline decodes
  obtain ⟨t, later, after, isRead, -, ⟨-, inner, isEntry, isClass, -⟩, -⟩ :=
    decodes ⟨0, 0, 0, 0, 0, 0⟩ []
  have found : readType ⟨0, 0, 0, 0, 0, 0⟩ 3
      ⟨['A', 'A', 'i'], ⟨[], [], [], [], [], []⟩, ⟨0, 0, 0⟩⟩ =
      .ok (⟨.wrapper .array, 0, 0⟩, ⟨[],
        ⟨[], [], [⟨.basic .int, 0, 0⟩, ⟨.wrapper .array, 0, 0⟩], [], [], []⟩, ⟨0, 0, 0⟩⟩) := rfl
  cases found.symm.trans isRead
  cases isEntry
  cases isClass

end Disvm.SymbolFile
