import Disvm.DecimalText

/-!
# Signatures of types

The builders and the compiler write the signature of a type from the same tree.  The compiler
numbers tuples, ADTs, pick tags and modules as it meets them and refers back by number, and it
ends the members of modules where the builders separate them.
-/

namespace Disvm.Sigkind

open DecimalText

/-- A character that the compiler writes and the builders do not. -/
def IsMark (character : Char) : Prop :=
  character = '@' ∨ character = ';'

/-- An identifier, or the decimal text of a scale, which both write with `%g`. -/
structure Name where
  text : List Char
  plain : ∀ character ∈ text, ¬ IsMark character

inductive BasicKind where
  | none
  | byte
  | integer
  | real
  | big
  | string
  | poly
  deriving DecidableEq, Repr

inductive WrapperKind where
  | array
  | ref
  | list
  | channel
  deriving DecidableEq, Repr

mutual

/-- A type as it is signed.  Equal types have the same class; `again` is a type of a class
that has been signed before. -/
inductive Ty (Class : Type) where
  | basic (kind : BasicKind)
  | fixed (scale : Name)
  | wrapper (kind : WrapperKind) (tof : Ty Class)
  | fn (varargs : Bool) (ids : Ids Class) (tof : Ty Class)
  | tuple (eq : Class) (ids : Ids Class)
  | adt (eq : Class) (ids : Ids Class) (tags : Tags Class)
  | module (eq : Class) (ids : Ids Class)
  | again (eq : Class)

/-- The declarations that are signed, with the flags of a `self` and of a `cyclic` one. -/
inductive Ids (Class : Type) where
  | nil
  | cons (name : Name) (implicit cyc : Bool) (ty : Ty Class) (next : Ids Class)

/-- The tags of a pick with their own classes. -/
inductive Tags (Class : Type) where
  | nil
  | cons (name : Name) (eq : Class) (ids : Ids Class) (next : Tags Class)

end

/-- `type_id_t`. -/
def BasicKind.id : BasicKind → Char
  | .none => 'n'
  | .byte => 'b'
  | .integer => 'i'
  | .real => 'r'
  | .big => 'B'
  | .string => 's'
  | .poly => 'P'

def WrapperKind.id : WrapperKind → Char
  | .array => 'A'
  | .ref => 'R'
  | .list => 'L'
  | .channel => 'C'

/-- `modifier_id_t`. -/
def modifiers (implicit cyc : Bool) : List Char :=
  (if implicit then ['S'] else []) ++ if cyc then ['y'] else []

/-- `nested_type`. -/
def nestedType : List (List Char) → List Char
  | [] => []
  | [t] => t
  | t1 :: t2 :: s => t1 ++ ',' :: nestedType (t2 :: s)

/-- `Tm`. -/
def tm (name : Name) (type : List Char) : List Char :=
  name.text ++ ':' :: type

/-- `Ttype_ref`. -/
def typeRef (num : ℕ) : List Char :=
  WrapperKind.ref.id :: decimal num

/-- `Tadt_pick_tag::create`. -/
def adtPickTag (pickTag : Name) (adtRef : ℕ) (tms : List (List Char)) : List Char :=
  pickTag.text ++ '=' :: '>' :: 'p' :: '(' :: (nestedType tms ++
    ')' :: WrapperKind.ref.id :: decimal adtRef)

/-- `Tadt::create`, with its case of a pick tag as the first type. -/
def adt (tms tags : List (List Char)) : List Char :=
  match tms, tags with
  | [], [] => 'a' :: '(' :: [')']
  | [], tag :: tags => 'a' :: '(' :: ',' :: (nestedType (tag :: tags) ++ [')'])
  | tms, tags => 'a' :: '(' :: (nestedType (tms ++ tags) ++ [')'])

section Builders

variable {Class : Type} (numbers : Class → ℕ)

mutual

/-- The string of the builders for a type, with some numbers for the references. -/
def build : Ty Class → List Char
  | .basic kind => [kind.id]
  | .fixed scale => 'x' :: scale.text
  | .wrapper kind tof => kind.id :: build tof
  | .fn varargs ids tof =>
      (if varargs then ['f', '*'] else ['f']) ++
        '(' :: (nestedType (buildIds false ids) ++ ')' :: build tof)
  | .tuple _ ids => 't' :: '(' :: (nestedType (buildIds false ids) ++ [')'])
  | .adt eq ids tags => adt (buildIds true ids) (buildTags (numbers eq) tags)
  | .module _ ids => 'm' :: '\x7b' :: (nestedType (buildIds true ids) ++ ['\x7d'])
  | .again eq => typeRef (numbers eq)

def buildIds (useNames : Bool) : Ids Class → List (List Char)
  | .nil => []
  | .cons name implicit cyc ty next =>
      let type := modifiers implicit cyc ++ build ty
      (if useNames then tm name type else type) :: buildIds useNames next

def buildTags (adtRef : ℕ) : Tags Class → List (List Char)
  | .nil => []
  | .cons name _ ids next => adtPickTag name adtRef (buildIds true ids) :: buildTags adtRef next

end

end Builders

section Compiler

variable {Class : Type} [DecidableEq Class]

/-- The classes that have a number, the last one first. -/
abbrev Signed (Class : Type) := List Class

/-- `t.eq.id`, of a class that has one. -/
def Signed.number (signed : Signed Class) (eq : Class) : ℕ :=
  signed.length - signed.idxOf eq

/-- What is between a tag and the next ones. -/
def Tags.separator : Tags Class → List Char
  | .nil => []
  | .cons _ _ _ _ => [',']

/-- `SIGREC` and the number. -/
def sigRec (signed : Signed Class) (eq : Class) : List Char :=
  '@' :: decimal (signed.number eq)

mutual

/-- `rtsign`, with an array that is long enough; nothing for a class that should have been
signed. -/
def rtsign : Signed Class → Ty Class → Option (List Char × Signed Class)
  | signed, .basic kind => some ([kind.id], signed)
  | signed, .fixed scale => some ('x' :: scale.text, signed)
  | signed, .wrapper kind tof => do
      let (text, signed) ← rtsign signed tof
      return (kind.id :: text, signed)
  | signed, .fn varargs ids tof => do
      let (text, signed) ← idsLoop false true signed ids
      let (result, signed) ← rtsign signed tof
      return ('f' :: ((if varargs then ['*'] else []) ++ '(' :: (text ++ ')' :: result)), signed)
  | signed, .tuple eq ids =>
      if eq ∈ signed then some (sigRec signed eq, signed)
      else do
        let (text, signed) ← idsLoop false true (eq :: signed) ids
        return ('t' :: '(' :: (text ++ [')']), signed)
  | signed, .adt eq ids tags =>
      if eq ∈ signed then some (sigRec signed eq, signed)
      else do
        let (text, signed) ← idsLoop true true (eq :: signed) ids
        match tags with
        | .nil => return ('a' :: '(' :: (text ++ [')']), signed)
        | tags =>
            -- the closing ')' has become a ','
            let (tagText, signed) ← tagsLoop eq signed tags
            return ('a' :: '(' :: (text ++ ',' :: (tagText ++ [')'])), signed)
  | signed, .module eq ids =>
      if eq ∈ signed then some (sigRec signed eq, signed)
      else do
        let (text, signed) ← membersLoop (eq :: signed) ids
        return ('m' :: '\x7b' :: (text ++ ['\x7d']), signed)
  | signed, .again eq => if eq ∈ signed then some (sigRec signed eq, signed) else none

/-- The loop of `idsign` between its parentheses. -/
def idsLoop (useNames : Bool) :
    (first : Bool) → Signed Class → Ids Class → Option (List Char × Signed Class)
  | _, signed, .nil => some ([], signed)
  | first, signed, .cons name implicit cyc ty next => do
      let (text, signed) ← rtsign signed ty
      let (rest, signed) ← idsLoop useNames false signed next
      return ((if first then [] else [',']) ++ (if useNames then name.text ++ [':'] else []) ++
        modifiers implicit cyc ++ text ++ rest, signed)

/-- The loop over the members of a module. -/
def membersLoop : Signed Class → Ids Class → Option (List Char × Signed Class)
  | signed, .nil => some ([], signed)
  | signed, .cons name implicit cyc ty next => do
      let (text, signed) ← rtsign signed ty
      let (rest, signed) ← membersLoop signed next
      return (name.text ++ ':' :: (modifiers implicit cyc ++ text ++ ';' :: rest), signed)

/-- The loop over the tags of an ADT; every tag ends with its ADT. -/
def tagsLoop (adtEq : Class) : Signed Class → Tags Class → Option (List Char × Signed Class)
  | signed, .nil => some ([], signed)
  | signed, .cons name eq ids next => do
      let (text, signed) ←
        (if eq ∈ signed then some (sigRec signed eq, signed)
        else do
          let (text, signed) ← idsLoop true true (eq :: signed) ids
          return ('p' :: '(' :: (text ++ ')' :: sigRec signed adtEq), signed))
      let (rest, signed) ← tagsLoop adtEq signed next
      return (name.text ++ '=' :: '>' :: (text ++ next.separator ++ rest), signed)

end

end Compiler

section Agreement

variable {Class : Type}

mutual

/-- No reference, no tag and no member of a module. -/
def Ty.Plain : Ty Class → Prop
  | .basic _ | .fixed _ => True
  | .wrapper _ tof => tof.Plain
  | .fn _ ids tof => ids.Plain ∧ tof.Plain
  | .tuple _ ids => ids.Plain
  | .adt _ ids .nil => ids.Plain
  | .adt _ _ (.cons _ _ _ _) => False
  | .module _ .nil => True
  | .module _ (.cons _ _ _ _ _) => False
  | .again _ => False

def Ids.Plain : Ids Class → Prop
  | .nil => True
  | .cons _ _ _ ty next => ty.Plain ∧ next.Plain

end

mutual

/-- The classes of tuples, ADTs and modules, in the order in which they are signed. -/
def Ty.classes : Ty Class → List Class
  | .basic _ | .fixed _ | .again _ => []
  | .wrapper _ tof => tof.classes
  | .fn _ ids tof => ids.classes ++ tof.classes
  | .tuple eq ids | .adt eq ids _ | .module eq ids => eq :: ids.classes

def Ids.classes : Ids Class → List Class
  | .nil => []
  | .cons _ _ _ ty next => ty.classes ++ next.classes

end

/-- No mark is in a text. -/
def Clean (text : List Char) : Prop :=
  ∀ character ∈ text, ¬ IsMark character

theorem clean_nil : Clean [] := fun _ member => nomatch member

theorem clean_append {first second : List Char} :
    Clean (first ++ second) ↔ Clean first ∧ Clean second :=
  List.forall_mem_append

theorem clean_cons {first : Char} {text : List Char} :
    Clean (first :: text) ↔ ¬ IsMark first ∧ Clean text :=
  List.forall_mem_cons

instance (character : Char) : Decidable (IsMark character) :=
  inferInstanceAs (Decidable (_ ∨ _))

theorem clean_decimal (num : ℕ) : Clean (decimal num) := by
  intro character member mark
  rcases mark with rfl | rfl
  · exact notMem_decimal (by decide) (by decide) member
  · exact notMem_decimal (by decide) (by decide) member

theorem clean_modifiers (implicit cyc : Bool) : Clean (modifiers implicit cyc) := by
  cases implicit <;> cases cyc <;> simp [modifiers, Clean, IsMark]

theorem clean_nestedType {types : List (List Char)} (clean : ∀ type ∈ types, Clean type) :
    Clean (nestedType types) := by
  induction types with
  | nil => exact clean_nil
  | cons type types ih =>
      obtain ⟨isClean, others⟩ := List.forall_mem_cons.mp clean
      cases types with
      | nil => exact isClean
      | cons next types =>
          rw [nestedType, clean_append, clean_cons]
          exact ⟨isClean, by decide, ih others⟩

theorem BasicKind.not_isMark (kind : BasicKind) : ¬ IsMark kind.id := by
  cases kind <;> decide

theorem WrapperKind.not_isMark (kind : WrapperKind) : ¬ IsMark kind.id := by
  cases kind <;> decide

theorem clean_typeRef (num : ℕ) : Clean (typeRef num) :=
  clean_cons.mpr ⟨by decide, clean_decimal num⟩

theorem clean_adtPickTag (name : Name) (adtRef : ℕ) {tms : List (List Char)}
    (clean : ∀ type ∈ tms, Clean type) : Clean (adtPickTag name adtRef tms) := by
  unfold adtPickTag
  simp only [clean_append, clean_cons]
  exact ⟨name.plain, by decide, by decide, by decide, by decide, clean_nestedType clean,
    by decide, by decide, clean_decimal adtRef⟩

theorem clean_adt {tms tags : List (List Char)} (cleanTms : ∀ type ∈ tms, Clean type)
    (cleanTags : ∀ tag ∈ tags, Clean tag) : Clean (adt tms tags) := by
  have parenthesis : Clean [')'] := by simp [Clean, IsMark]
  unfold adt
  split
  · simp [Clean, IsMark]
  · simp only [clean_append, clean_cons]
    exact ⟨by decide, by decide, by decide, clean_nestedType cleanTags, by decide, clean_nil⟩
  · simp only [clean_append, clean_cons]
    refine ⟨by decide, by decide, clean_nestedType ?_, by decide, clean_nil⟩
    exact List.forall_mem_append.mpr ⟨cleanTms, cleanTags⟩

section Built

variable (numbers : Class → ℕ)

mutual

/-- The builders write no mark. -/
theorem clean_build : ∀ ty : Ty Class, Clean (build numbers ty)
  | .basic kind => clean_cons.mpr ⟨kind.not_isMark, clean_nil⟩
  | .fixed scale => clean_cons.mpr ⟨by decide, scale.plain⟩
  | .wrapper kind tof => clean_cons.mpr ⟨kind.not_isMark, clean_build tof⟩
  | .fn varargs ids tof => by
      have isBuilt := clean_nestedType (clean_buildIds false ids)
      have isLetter : Clean (if varargs then ['f', '*'] else ['f']) := by
        cases varargs <;> simp [Clean, IsMark]
      rw [build]
      simp only [clean_append, clean_cons]
      exact ⟨isLetter, by decide, isBuilt, by decide, clean_build tof⟩
  | .tuple _ ids => by
      rw [build]
      simp only [clean_append, clean_cons]
      exact ⟨by decide, by decide, clean_nestedType (clean_buildIds false ids), by decide,
        clean_nil⟩
  | .adt eq ids tags => clean_adt (clean_buildIds true ids) (clean_buildTags (numbers eq) tags)
  | .module _ ids => by
      rw [build]
      simp only [clean_append, clean_cons]
      exact ⟨by decide, by decide, clean_nestedType (clean_buildIds true ids), by decide,
        clean_nil⟩
  | .again eq => clean_typeRef (numbers eq)

theorem clean_buildIds (useNames : Bool) :
    ∀ ids : Ids Class, ∀ type ∈ buildIds numbers useNames ids, Clean type
  | .nil => fun _ member => nomatch member
  | .cons name implicit cyc ty next => by
      have isType : Clean (modifiers implicit cyc ++ build numbers ty) :=
        clean_append.mpr ⟨clean_modifiers implicit cyc, clean_build ty⟩
      rw [buildIds]
      refine List.forall_mem_cons.mpr ⟨?_, clean_buildIds useNames next⟩
      cases useNames with
      | false => exact isType
      | true => exact clean_append.mpr ⟨name.plain, clean_cons.mpr ⟨by decide, isType⟩⟩

theorem clean_buildTags (adtRef : ℕ) :
    ∀ tags : Tags Class, ∀ tag ∈ buildTags numbers adtRef tags, Clean tag
  | .nil => fun _ member => nomatch member
  | .cons name _ ids next => by
      rw [buildTags]
      exact List.forall_mem_cons.mpr ⟨clean_adtPickTag name adtRef (clean_buildIds true ids),
        clean_buildTags adtRef next⟩

end

end Built

/-- The types that the compiler signs in full. -/
structure Fresh (signed : Signed Class) (classes : List Class) : Prop where
  nodup : classes.Nodup
  new : ∀ eq ∈ classes, eq ∉ signed

theorem fresh_append {signed : Signed Class} {first second : List Class} :
    Fresh signed (first ++ second) ↔
      Fresh signed first ∧ Fresh (first.reverse ++ signed) second := by
  constructor
  · rintro ⟨nodup, new⟩
    obtain ⟨nodupFirst, nodupSecond, apart⟩ := List.nodup_append.mp nodup
    obtain ⟨newFirst, newSecond⟩ := List.forall_mem_append.mp new
    refine ⟨⟨nodupFirst, newFirst⟩, nodupSecond, fun eq member => ?_⟩
    rw [List.mem_append, List.mem_reverse, not_or]
    exact ⟨fun inFirst => apart eq inFirst eq member rfl, newSecond eq member⟩
  · rintro ⟨⟨nodupFirst, newFirst⟩, nodupSecond, newSecond⟩
    have apart : ∀ eq ∈ second, eq ∉ first ∧ eq ∉ signed := fun eq member => by
      have isNew := newSecond eq member
      rwa [List.mem_append, List.mem_reverse, not_or] at isNew
    refine ⟨List.nodup_append.mpr ⟨nodupFirst, nodupSecond, ?_⟩, ?_⟩
    · rintro eq inFirst other inSecond rfl
      exact (apart eq inSecond).1 inFirst
    · exact List.forall_mem_append.mpr ⟨newFirst, fun eq member => (apart eq member).2⟩

theorem fresh_cons {signed : Signed Class} {eq : Class} {classes : List Class} :
    Fresh signed (eq :: classes) ↔ eq ∉ signed ∧ Fresh (eq :: signed) classes := by
  have split : Fresh signed ([eq] ++ classes) ↔ _ := fresh_append
  rw [List.singleton_append] at split
  rw [split]
  refine and_congr_left' ⟨fun fresh => fresh.new eq List.mem_cons_self, fun isNew => ?_⟩
  exact ⟨by simp, fun other member => by rwa [List.mem_singleton.mp member]⟩

/-- A member after a separator. -/
def separated (first : Bool) (types : List (List Char)) : List Char :=
  if first ∨ types = [] then nestedType types else ',' :: nestedType types

theorem separated_cons (first : Bool) (type : List Char) (types : List (List Char)) :
    separated first (type :: types) =
      (if first then [] else [',']) ++ type ++ separated false types := by
  cases first <;> cases types <;> simp [separated, nestedType]

section Signing

variable [DecidableEq Class] (numbers : Class → ℕ)

mutual

/-- Plain types with different classes are signed as they are built. -/
theorem rtsign_plain : ∀ (ty : Ty Class) (signed : Signed Class), ty.Plain →
    Fresh signed ty.classes →
      rtsign signed ty = some (build numbers ty, ty.classes.reverse ++ signed)
  | .basic kind, _, _, _ => rfl
  | .fixed scale, _, _, _ => rfl
  | .wrapper kind tof, signed, plain, fresh => by
      rw [rtsign, rtsign_plain tof signed plain fresh]
      rfl
  | .fn varargs ids tof, signed, plain, fresh => by
      obtain ⟨freshIds, freshTof⟩ := fresh_append.mp fresh
      rw [rtsign, idsLoop_plain false true ids signed plain.1 freshIds]
      simp only [bind, Option.bind]
      rw [rtsign_plain tof _ plain.2 freshTof, Ty.classes, List.reverse_append, List.append_assoc,
        build]
      cases varargs <;> simp [separated]
  | .tuple eq ids, signed, plain, fresh => by
      obtain ⟨isNew, freshIds⟩ := fresh_cons.mp fresh
      rw [rtsign, if_neg isNew, idsLoop_plain false true ids _ plain freshIds]
      simp [separated, build, Ty.classes]
  | .adt eq ids .nil, signed, plain, fresh => by
      obtain ⟨isNew, freshIds⟩ := fresh_cons.mp fresh
      rw [rtsign, if_neg isNew, idsLoop_plain true true ids _ plain freshIds]
      cases ids with
      | nil => simp [separated, build, buildIds, buildTags, adt, nestedType, Ty.classes]
      | cons name implicit cyc ty next =>
          simp [separated, build, buildIds, buildTags, adt, Ty.classes]
  | .module eq .nil, signed, _, fresh => by
      have isNew := (fresh_cons.mp fresh).1
      rw [rtsign, if_neg isNew]
      rfl

theorem idsLoop_plain (useNames : Bool) : ∀ (first : Bool) (ids : Ids Class)
    (signed : Signed Class), ids.Plain → Fresh signed ids.classes →
      idsLoop useNames first signed ids =
        some (separated first (buildIds numbers useNames ids), ids.classes.reverse ++ signed)
  | first, .nil, _, _, _ => by simp [idsLoop, separated, buildIds, nestedType, Ids.classes]
  | first, .cons name implicit cyc ty next, signed, plain, fresh => by
      obtain ⟨freshTy, freshNext⟩ := fresh_append.mp fresh
      rw [idsLoop, rtsign_plain ty signed plain.1 freshTy]
      simp only [bind, Option.bind]
      rw [idsLoop_plain useNames false next _ plain.2 freshNext, buildIds, separated_cons,
        Ids.classes, List.reverse_append, List.append_assoc]
      cases useNames <;> simp [tm]

end

theorem not_clean_sigRec (signed : Signed Class) (eq : Class) : ¬ Clean (sigRec signed eq) :=
  fun clean => (clean_cons.mp clean).1 (.inl rfl)

/-- A tag ends with its ADT. -/
theorem not_clean_tagsLoop {adtEq : Class} {signed later : Signed Class} {name : Name}
    {eq : Class} {ids : Ids Class} {next : Tags Class} {text : List Char}
    (loops : tagsLoop adtEq signed (.cons name eq ids next) = some (text, later)) :
    ¬ Clean text := by
  rw [tagsLoop] at loops
  obtain ⟨⟨tagText, afterTag⟩, isTag, rest⟩ := Option.bind_eq_some_iff.mp loops
  obtain ⟨⟨restText, afterRest⟩, -, isText⟩ := Option.bind_eq_some_iff.mp rest
  cases isText
  intro clean
  simp only [clean_append, clean_cons] at clean
  have cleanTag : Clean tagText := clean.2.2.2.1.1
  split_ifs at isTag
  · cases isTag
    exact not_clean_sigRec signed eq cleanTag
  · obtain ⟨⟨idsText, afterIds⟩, -, isText⟩ := Option.bind_eq_some_iff.mp isTag
    cases isText
    simp only [clean_append, clean_cons] at cleanTag
    exact not_clean_sigRec afterTag adtEq cleanTag.2.2.2.2

/-- A member of a module is ended. -/
theorem not_clean_membersLoop {signed later : Signed Class} {name : Name} {implicit cyc : Bool}
    {ty : Ty Class} {next : Ids Class} {text : List Char}
    (loops : membersLoop signed (.cons name implicit cyc ty next) = some (text, later)) :
    ¬ Clean text := by
  rw [membersLoop] at loops
  obtain ⟨⟨tyText, afterTy⟩, -, rest⟩ := Option.bind_eq_some_iff.mp loops
  obtain ⟨⟨restText, afterRest⟩, -, isText⟩ := Option.bind_eq_some_iff.mp rest
  cases isText
  intro clean
  simp only [clean_append, clean_cons] at clean
  exact clean.2.2.2.1 (.inr rfl)

mutual

/-- A signature without a mark is the one of a plain type with different classes. -/
theorem plain_of_clean : ∀ (ty : Ty Class) {signed later : Signed Class} {text : List Char},
    rtsign signed ty = some (text, later) → Clean text → ty.Plain ∧ Fresh signed ty.classes
  | .basic _, _, _, _, _, _ => ⟨trivial, .nil, fun _ member => nomatch member⟩
  | .fixed _, _, _, _, _, _ => ⟨trivial, .nil, fun _ member => nomatch member⟩
  | .wrapper kind tof, signed, later, text, signs, clean => by
      rw [rtsign] at signs
      obtain ⟨⟨tofText, afterTof⟩, isTof, isText⟩ := Option.bind_eq_some_iff.mp signs
      cases isText
      exact plain_of_clean tof isTof (clean_cons.mp clean).2
  | .fn varargs ids tof, signed, later, text, signs, clean => by
      rw [rtsign] at signs
      obtain ⟨⟨idsText, afterIds⟩, isIds, rest⟩ := Option.bind_eq_some_iff.mp signs
      obtain ⟨⟨tofText, afterTof⟩, isTof, isText⟩ := Option.bind_eq_some_iff.mp rest
      cases isText
      simp only [clean_append, clean_cons] at clean
      obtain ⟨-, -, -, cleanIds, -, cleanTof⟩ := clean
      obtain ⟨plainIds, freshIds⟩ := plain_of_cleanIds false true ids isIds cleanIds
      rw [idsLoop_plain (fun _ => 0) false true ids signed plainIds freshIds] at isIds
      cases isIds
      obtain ⟨plainTof, freshTof⟩ := plain_of_clean tof isTof cleanTof
      exact ⟨⟨plainIds, plainTof⟩, fresh_append.mpr ⟨freshIds, freshTof⟩⟩
  | .tuple eq ids, signed, later, text, signs, clean => by
      rw [rtsign] at signs
      split_ifs at signs with isSigned
      · cases signs
        exact absurd clean (not_clean_sigRec signed eq)
      · obtain ⟨⟨idsText, afterIds⟩, isIds, isText⟩ := Option.bind_eq_some_iff.mp signs
        cases isText
        simp only [clean_append, clean_cons] at clean
        obtain ⟨plainIds, freshIds⟩ := plain_of_cleanIds false true ids isIds clean.2.2.1
        exact ⟨plainIds, fresh_cons.mpr ⟨isSigned, freshIds⟩⟩
  | .adt eq ids tags, signed, later, text, signs, clean => by
      rw [rtsign] at signs
      split_ifs at signs with isSigned
      · cases signs
        exact absurd clean (not_clean_sigRec signed eq)
      · obtain ⟨⟨idsText, afterIds⟩, isIds, rest⟩ := Option.bind_eq_some_iff.mp signs
        cases tags with
        | nil =>
            cases rest
            simp only [clean_append, clean_cons] at clean
            obtain ⟨plainIds, freshIds⟩ := plain_of_cleanIds true true ids isIds clean.2.2.1
            exact ⟨plainIds, fresh_cons.mpr ⟨isSigned, freshIds⟩⟩
        | cons name tagEq tagIds next =>
            obtain ⟨⟨tagText, afterTags⟩, areTags, isText⟩ := Option.bind_eq_some_iff.mp rest
            cases isText
            simp only [clean_append, clean_cons] at clean
            exact absurd clean.2.2.2.2.1 (not_clean_tagsLoop areTags)
  | .module eq ids, signed, later, text, signs, clean => by
      rw [rtsign] at signs
      split_ifs at signs with isSigned
      · cases signs
        exact absurd clean (not_clean_sigRec signed eq)
      · obtain ⟨⟨idsText, afterIds⟩, areMembers, isText⟩ := Option.bind_eq_some_iff.mp signs
        cases isText
        cases ids with
        | nil =>
            refine ⟨trivial, fresh_cons.mpr ⟨isSigned, .nil, ?_⟩⟩
            exact fun _ member => nomatch member
        | cons name implicit cyc ty next =>
            simp only [clean_append, clean_cons] at clean
            exact absurd clean.2.2.1 (not_clean_membersLoop areMembers)
  | .again eq, signed, later, text, signs, clean => by
      rw [rtsign] at signs
      split_ifs at signs
      cases signs
      exact absurd clean (not_clean_sigRec signed eq)

theorem plain_of_cleanIds (useNames first : Bool) : ∀ (ids : Ids Class)
    {signed later : Signed Class} {text : List Char},
    idsLoop useNames first signed ids = some (text, later) → Clean text →
      ids.Plain ∧ Fresh signed ids.classes
  | .nil, _, _, _, _, _ => ⟨trivial, .nil, fun _ member => nomatch member⟩
  | .cons name implicit cyc ty next, signed, later, text, loops, clean => by
      rw [idsLoop] at loops
      obtain ⟨⟨tyText, afterTy⟩, isTy, rest⟩ := Option.bind_eq_some_iff.mp loops
      obtain ⟨⟨nextText, afterNext⟩, isNext, isText⟩ := Option.bind_eq_some_iff.mp rest
      cases isText
      simp only [clean_append] at clean
      obtain ⟨⟨-, cleanTy⟩, cleanNext⟩ := clean
      obtain ⟨plainTy, freshTy⟩ := plain_of_clean ty isTy cleanTy
      rw [rtsign_plain (fun _ => 0) ty signed plainTy freshTy] at isTy
      cases isTy
      obtain ⟨plainNext, freshNext⟩ := plain_of_cleanIds useNames false next isNext cleanNext
      exact ⟨⟨plainTy, plainNext⟩, fresh_append.mpr ⟨freshTy, freshNext⟩⟩

end

omit [DecidableEq Class] in
theorem fresh_nil {classes : List Class} : Fresh [] classes ↔ classes.Nodup :=
  ⟨Fresh.nodup, fun nodup => ⟨nodup, fun _ _ member => nomatch member⟩⟩

/-- The builders and the compiler write the same string exactly for types without references,
tags and members of modules whose classes are signed once. -/
theorem signatures_agree_iff (ty : Ty Class) {text : List Char} {later : Signed Class}
    (signs : rtsign [] ty = some (text, later)) :
    build numbers ty = text ↔ ty.Plain ∧ ty.classes.Nodup := by
  constructor
  · intro agree
    have clean : Clean text := agree ▸ clean_build numbers ty
    obtain ⟨plain, fresh⟩ := plain_of_clean ty signs clean
    exact ⟨plain, fresh_nil.mp fresh⟩
  · rintro ⟨plain, nodup⟩
    have written := rtsign_plain numbers ty [] plain (fresh_nil.mpr nodup)
    rw [written] at signs
    cases signs
    rfl

end Signing

def fieldName : Name where
  text := ['n']
  plain := List.forall_mem_singleton.mpr (by decide)

/-- `(int, string)`. -/
def pair : Ty ℕ :=
  .tuple 0 (.cons fieldName false false (.basic .integer)
    (.cons fieldName false false (.basic .string) .nil))

theorem signatures_agree_pair :
    rtsign [] pair = some (['t', '(', 'i', ',', 's', ')'], [0]) ∧
      (build (fun _ => 0) pair = ['t', '(', 'i', ',', 's', ')'] ↔
        pair.Plain ∧ pair.classes.Nodup) :=
  ⟨rfl, signatures_agree_iff (fun _ => 0) pair rfl⟩

/-- An ADT with a cyclic reference to itself. -/
def node : Ty ℕ :=
  .adt 0 (.cons fieldName false true (.wrapper .ref (.again 0)) .nil) .nil

/-- The reference is `R1` for the builders and `@1` for the compiler, whatever their number. -/
theorem node_not_agreed :
    rtsign [] node = some ('a' :: '(' :: 'n' :: ':' :: 'y' :: 'R' :: '@' :: (decimal 1 ++ [')']),
      [0]) ∧
      ∀ numbers : ℕ → ℕ, build numbers node ≠
        'a' :: '(' :: 'n' :: ':' :: 'y' :: 'R' :: '@' :: (decimal 1 ++ [')']) := by
  refine ⟨rfl, fun numbers agree => ?_⟩
  have clean := agree ▸ clean_build numbers node
  simp only [clean_cons] at clean
  exact clean.2.2.2.2.2.2.1 (.inl rfl)

end Agreement

end Disvm.Sigkind
