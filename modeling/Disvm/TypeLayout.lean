import Disvm.RecordLayout

/-!
# Layout of types

The compiler gives every type a size and an alignment and every field of a record an offset.
From these follows where the values of a type hold pointers.  The compiler counts in ints; sizes are
numbers here, which are the ints as long as they are below `maxint`.
-/

namespace Disvm.TypeLayout

open RecordLayout

def iby2wd : ℕ := 4

def iby2lg : ℕ := 8

def iby2ft : ℕ := 8

/-- The first number that is no int of the compiler. -/
def maxint : ℕ := 2 ^ 31

/-- The storage classes of declarations that are given an offset or are left in a type. -/
inductive Store where
  | dglobal
  | darg
  | dlocal
  | dfield
  | dfn
  | dconst
  deriving DecidableEq, Repr

def storespace : Store → Bool
  | .dglobal | .darg | .dlocal | .dfield => true
  | .dfn | .dconst => false

/-- The kinds whose size does not depend on anything else in the type. -/
inductive Kind where
  | tnone
  | terror
  | tbyte
  | tint
  | tbig
  | treal
  | tstring
  | tany
  | texception
  | tref
  | tchan
  | tarray
  | tlist
  | tmodule
  | tfix
  | tpoly
  | tfn
  | tainit
  | texcept
  deriving DecidableEq, Repr

/-- `tattr[kind].isptr`. -/
def Kind.isptr : Kind → Bool
  | .tstring | .tany | .tref | .tchan | .tarray | .tlist | .tmodule | .tpoly => true
  | _ => false

inductive RecordKind where
  | tadt
  | ttuple
  | texception
  deriving DecidableEq, Repr

mutual

/-- A type as it is laid out.  A record is an ADT without picks, a tuple or an exception with
arguments.  A pick has the declarations of its ADT, its own ones and the type `tof` of the tuple
that its values are made from; the other kinds with arguments are tables that the compiler
writes. -/
inductive Ty where
  | plain (kind : Kind)
  | record (kind : RecordKind) (ids : Ids)
  | tadtpick (ids own : Ids) (tof : Ty)
  | talt (labs : List Bool)
  | tcase (nlab : ℕ)
  | tcasec (nlab : ℕ)
  | tcasel (nlab : ℕ)
  | tgoto (nlab : ℕ) (iwild : Bool)
  | tiface (ids : List (String × Option String))

/-- Declarations in a list.  A local that shares the place of another one is linked to it. -/
inductive Ids where
  | nil
  | cons (store : Store) (linked : Bool) (ty : Ty) (next : Ids)

end

/-- `while(off % align) off++`. -/
def alignLoop (align : ℕ) : (fuel : ℕ) → (off : ℕ) → ℕ
  | 0, off => off
  | fuel + 1, off => if off % align = 0 then off else alignLoop align fuel (off + 1)

/-- `align`, which turns its loop less often than the alignment says. -/
def align (off align : ℕ) : ℕ :=
  alignLoop align align off

structure Extent where
  size : ℕ
  align : ℕ
  deriving DecidableEq, Repr

/-- What `sizeids` finds: the offsets of the declarations, the end and the alignment. -/
structure Placement where
  offsets : List ℕ
  off : ℕ
  al : ℕ
  deriving DecidableEq, Repr

def Kind.extent : Kind → Extent
  | .tnone | .terror | .tfn | .tainit => ⟨0, 1⟩
  | .tbyte => ⟨1, 1⟩
  | .tbig => ⟨iby2lg, iby2lg⟩
  | .treal => ⟨iby2ft, iby2ft⟩
  | .texcept => ⟨0, iby2wd⟩
  | .tint | .tstring | .tany | .texception | .tref | .tchan | .tarray | .tlist | .tmodule
  | .tfix | .tpoly => ⟨iby2wd, iby2wd⟩

/-- The size of a `Tiface`, from its first word on. -/
def sizeiface : List (String × Option String) → (sz : ℕ) → ℕ
  | [], sz => sz
  | (name, dot) :: ids, sz =>
      let sz := align sz iby2wd + iby2wd + (name.utf8ByteSize + 1)
      match dot with
      | some name => sizeiface ids (sz + (name.utf8ByteSize + 1))
      | none => sizeiface ids sz

/-- The size of a record, with the flag `z` of the compiler. -/
def sizerecord (z : Bool) (ids : Placement) : Extent :=
  if z then ⟨align ids.off iby2lg, iby2lg⟩ else ⟨align ids.off ids.al, ids.al⟩

/-- The size of a pick, whose own declarations follow those of the ADT. -/
def sizepick (z : Bool) (common picked : Placement) : Extent :=
  if z then ⟨align picked.off iby2lg, iby2lg⟩
  else
    let al := if common.al < iby2wd then iby2wd else common.al
    let a := if picked.al < al then al else picked.al
    ⟨align picked.off a, a⟩

section Sizes

variable (z : Bool)

mutual

def sizetype : Ty → Extent
  | .plain kind => kind.extent
  | .record _ ids => sizerecord z (sizeids ids 0 1)
  | .tadtpick ids own _ =>
      let common := sizeids ids iby2wd 1
      sizepick z common (sizeids own common.off 1)
  | .talt labs => ⟨labs.length * 2 * iby2wd + 2 * iby2wd, iby2wd⟩
  | .tcase nlab => ⟨nlab * 3 * iby2wd + 2 * iby2wd, iby2wd⟩
  | .tcasec nlab => ⟨nlab * 3 * iby2wd + 2 * iby2wd, iby2wd⟩
  | .tcasel nlab => ⟨nlab * 6 * iby2wd + 3 * iby2wd, iby2lg⟩
  | .tgoto nlab iwild =>
      ⟨nlab * iby2wd + iby2wd + if iwild then iby2wd else 0, iby2wd⟩
  | .tiface ids => ⟨sizeiface ids iby2wd, iby2wd⟩

/-- `sizeids`, with the alignment that it has found so far. -/
def sizeids : Ids → (off al : ℕ) → Placement
  | .nil, off, al => ⟨[], off, al⟩
  | .cons store _ ty next, off, al =>
      if storespace store then
        let a := if (sizetype ty).align = 0 then 1 else (sizetype ty).align
        let offset := align off a
        let rest := sizeids next (offset + (sizetype ty).size) (if a > al then a else al)
        ⟨offset :: rest.offsets, rest.off, rest.al⟩
      else
        let rest := sizeids next off al
        ⟨0 :: rest.offsets, rest.off, rest.al⟩

end

end Sizes

/-- The declarations that `descmap` goes past. -/
def skips (store : Store) (linked : Bool) : Bool :=
  store == .dfn || store == .dconst || store == .dlocal && linked

theorem alignLoop_eq {align : ℕ} (positive : 0 < align) :
    ∀ fuel off, roundUp off align ≤ off + fuel → alignLoop align fuel off = roundUp off align := by
  intro fuel
  induction fuel with
  | zero => exact fun off near => le_antisymm (le_roundUp positive off) near
  | succ fuel ih =>
      intro off near
      rw [alignLoop]
      split_ifs with divides
      · exact (roundUp_of_dvd positive (Nat.dvd_of_mod_eq_zero divides)).symm
      · have behind : off < roundUp off align := by
          apply lt_of_le_of_ne (le_roundUp positive off)
          intro same
          apply divides
          exact Nat.mod_eq_zero_of_dvd (same ▸ dvd_roundUp off align)
        have next : roundUp (off + 1) align = roundUp off align :=
          le_antisymm (roundUp_le positive behind (dvd_roundUp off align))
            (roundUp_mono positive (Nat.le_succ off))
        rw [ih (off + 1) (by omega), next]

theorem align_eq {al : ℕ} (positive : 0 < al) (off : ℕ) : align off al = roundUp off al :=
  alignLoop_eq positive al off (roundUp_lt positive off).le

theorem Kind.align_isPower (kind : Kind) : kind.extent.align.isPowerOfTwo := by
  cases kind
  all_goals first | exact ⟨0, rfl⟩ | exact ⟨2, rfl⟩ | exact ⟨3, rfl⟩

section Items

variable (z : Bool)

theorem sizerecord_isPower {ids : Placement} (isPower : ids.al.isPowerOfTwo) :
    (sizerecord z ids).align.isPowerOfTwo := by
  cases z with
  | false => exact isPower
  | true => exact ⟨3, rfl⟩

theorem sizepick_isPower {common picked : Placement} (isCommon : common.al.isPowerOfTwo)
    (isPicked : picked.al.isPowerOfTwo) : (sizepick z common picked).align.isPowerOfTwo := by
  unfold sizepick
  dsimp only
  split_ifs
  · exact ⟨3, rfl⟩
  · exact ⟨2, rfl⟩
  · exact isPicked
  · exact isCommon
  · exact isPicked

mutual

theorem sizetype_isPower : ∀ ty : Ty, (sizetype z ty).align.isPowerOfTwo
  | .plain kind => kind.align_isPower
  | .record kind ids => by
      rw [sizetype]
      exact sizerecord_isPower z (sizeids_isPower ids 0 1 ⟨0, rfl⟩)
  | .tadtpick ids own tof => by
      rw [sizetype]
      exact sizepick_isPower z (sizeids_isPower ids _ 1 ⟨0, rfl⟩)
        (sizeids_isPower own _ 1 ⟨0, rfl⟩)
  | .talt labs => ⟨2, rfl⟩
  | .tcase nlab => ⟨2, rfl⟩
  | .tcasec nlab => ⟨2, rfl⟩
  | .tcasel nlab => ⟨3, rfl⟩
  | .tgoto nlab iwild => ⟨2, rfl⟩
  | .tiface ids => ⟨2, rfl⟩

theorem sizeids_isPower : ∀ (ids : Ids) (off al : ℕ), al.isPowerOfTwo →
    (sizeids z ids off al).al.isPowerOfTwo
  | .nil, off, al, isPower => isPower
  | .cons store linked ty next, off, al, isPower => by
      have first := sizetype_isPower ty
      rw [sizeids]
      cases storespace store with
      | false => exact sizeids_isPower next off al isPower
      | true =>
          apply sizeids_isPower next
          have some : (sizetype z ty).align ≠ 0 := (Nat.pos_of_isPowerOfTwo first).ne'
          rw [if_neg some]
          split_ifs
          · exact first
          · exact isPower

end

/-- A type as something that is placed. -/
def item (ty : Ty) : Item where
  size := (sizetype z ty).size
  align := (sizetype z ty).align
  isPower := sizetype_isPower z ty

/-- The declarations with storage. -/
def Ids.stored : Ids → List Ty
  | .nil => []
  | .cons store _ ty next => if storespace store then ty :: next.stored else next.stored

def Ids.items (ids : Ids) : List Item :=
  ids.stored.map (item z)

theorem sizeids_cons {store : Store} (isStored : storespace store = true) (linked : Bool) (ty : Ty)
    (next : Ids) (off al : ℕ) :
    sizeids z (.cons store linked ty next) off al =
      let offset := roundUp off (item z ty).align
      let rest := sizeids z next (offset + (item z ty).size) (max (item z ty).align al)
      ⟨offset :: rest.offsets, rest.off, rest.al⟩ := by
  have positive := (item z ty).positive
  have nonzero : (sizetype z ty).align ≠ 0 := positive.ne'
  have widest : (if (sizetype z ty).align > al then (sizetype z ty).align else al) =
      max (item z ty).align al := by
    rw [max_def']
    unfold item
    dsimp only
    split_ifs <;> first | rfl | omega
  rw [sizeids, if_pos isStored, if_neg nonzero]
  dsimp only
  rw [widest]
  dsimp only [item]
  rw [align_eq (Nat.pos_of_ne_zero nonzero)]

theorem sizeids_cons_of_not {store : Store} (isStored : storespace store = false) (linked : Bool)
    (ty : Ty) (next : Ids) (off al : ℕ) :
    sizeids z (.cons store linked ty next) off al =
      let rest := sizeids z next off al
      ⟨0 :: rest.offsets, rest.off, rest.al⟩ := by
  rw [sizeids, isStored, if_neg Bool.false_ne_true]

/-- The declarations that `descmap` maps, with their offsets. -/
def visited : Ids → (offsets : List ℕ) → List (ℕ × Ty)
  | .cons store linked ty next, offset :: offsets =>
      if skips store linked then visited next offsets
      else (offset, ty) :: visited next offsets
  | _, _ => []

theorem storespace_of_not_skips {store : Store} {linked : Bool}
    (visits : skips store linked = false) : storespace store = true := by
  cases store <;> first | rfl | cases visits

theorem items_cons {store : Store} (isStored : storespace store = true) (linked : Bool) (ty : Ty)
    (next : Ids) : (Ids.cons store linked ty next).items z = item z ty :: next.items z := by
  rw [Ids.items, Ids.stored, if_pos isStored]
  rfl

theorem items_cons_of_not {store : Store} (isStored : storespace store = false) (linked : Bool)
    (ty : Ty) (next : Ids) : (Ids.cons store linked ty next).items z = next.items z := by
  rw [Ids.items, Ids.stored, isStored, if_neg Bool.false_ne_true]
  rfl

/-- What `descmap` maps of a list of declarations. -/
def fields (ids : Ids) (off : ℕ) : List (ℕ × Ty) :=
  visited ids (sizeids z ids off 1).offsets

/-- `sizeids` places the declarations with storage as a record, and those that are mapped are
among them. -/
theorem sizeids_eq (ids : Ids) : ∀ off al, 1 ≤ al →
    (sizeids z ids off al).off = finish (ids.items z) off ∧
      (sizeids z ids off al).al = max al (alignment (ids.items z)) ∧
      ((visited ids (sizeids z ids off al).offsets).map fun field =>
        (field.1, item z field.2)).Sublist (placed (ids.items z) off) := by
  match ids with
  | .nil => exact fun off al positive => ⟨rfl, (max_eq_left positive).symm, List.Sublist.slnil⟩
  | .cons store linked ty next =>
      intro off al positive
      have later := sizeids_eq next
      cases isStored : storespace store with
      | false =>
          have skipped : skips store linked = true := by
            by_contra visits
            rw [storespace_of_not_skips (Bool.eq_false_of_not_eq_true visits)] at isStored
            cases isStored
          rw [sizeids_cons_of_not z isStored, items_cons_of_not z isStored]
          dsimp only [visited]
          rw [if_pos skipped]
          exact later off al positive
      | true =>
          obtain ⟨isOff, isAl, isPlaced⟩ := later (roundUp off (item z ty).align + (item z ty).size)
            (max (item z ty).align al) (positive.trans (le_max_right _ _))
          rw [sizeids_cons z isStored, items_cons z isStored]
          dsimp only [visited]
          rw [isOff, isAl, finish, alignment, placed, offsets, List.zip_cons_cons]
          have order : max (max (item z ty).align al) (alignment (next.items z)) =
              max al (max (item z ty).align (alignment (next.items z))) := by
            rw [max_comm (item z ty).align al, max_assoc]
          have first : ((roundUp off (item z ty).align, item z ty) ::
              (visited next (sizeids z next (roundUp off (item z ty).align + (item z ty).size)
                (max (item z ty).align al)).offsets).map fun field =>
                  (field.1, item z field.2)).Sublist
              ((roundUp off (item z ty).align, item z ty) ::
                placed (next.items z) (roundUp off (item z ty).align + (item z ty).size)) :=
            isPlaced.cons_cons _
          refine ⟨rfl, order, ?_⟩
          split_ifs
          · exact isPlaced.cons _
          · exact first

/-- The fields of a pick where they are accessed. -/
def pickfields (ids own : Ids) : List (ℕ × Ty) :=
  fields z ids iby2wd ++ fields z own (sizeids z ids iby2wd 1).off

end Items

/-- A value of a type holds a pointer at an offset. -/
inductive Points (z : Bool) : Ty → ℕ → Prop where
  | pointer {kind : Kind} (isptr : kind.isptr = true) : Points z (.plain kind) 0
  | field {kind : RecordKind} {ids : Ids} {offset inner : ℕ} {ty : Ty}
      (member : (offset, ty) ∈ fields z ids 0) (holds : Points z ty inner) :
      Points z (.record kind ids) (offset + inner)
  | pick {ids own : Ids} {tof : Ty} {offset inner : ℕ} {ty : Ty}
      (member : (offset, ty) ∈ pickfields z ids own) (holds : Points z ty inner) :
      Points z (.tadtpick ids own tof) (offset + inner)
  | channel {labs : List Bool} {place : ℕ} (isptr : labs[place]? = some true) :
      Points z (.talt labs) (2 * iby2wd + place * (2 * iby2wd))
  | start {nlab place : ℕ} (inside : place < nlab) :
      Points z (.tcasec nlab) (iby2wd + place * (3 * iby2wd))
  | stop {nlab place : ℕ} (inside : place < nlab) :
      Points z (.tcasec nlab) (2 * iby2wd + place * (3 * iby2wd))

section Bounds

variable {z : Bool} {ids : Ids} {off offset : ℕ} {ty : Ty}

theorem Kind.extent_of_isptr {kind : Kind} (isptr : kind.isptr = true) :
    kind.extent = ⟨iby2wd, iby2wd⟩ := by
  cases kind <;> first | rfl | cases isptr

theorem field_placed (member : (offset, ty) ∈ fields z ids off) :
    (offset, item z ty) ∈ placed (ids.items z) off := by
  apply (sizeids_eq z ids off 1 le_rfl).2.2.mem
  exact List.mem_map.mpr ⟨_, member, rfl⟩

theorem field_aligned (member : (offset, ty) ∈ fields z ids off) :
    (sizetype z ty).align ∣ offset :=
  placed_aligned _ _ _ (field_placed member)

theorem field_inside (member : (offset, ty) ∈ fields z ids off) :
    off ≤ offset ∧ offset + (sizetype z ty).size ≤ (sizeids z ids off 1).off := by
  rw [(sizeids_eq z ids off 1 le_rfl).1]
  exact placed_inside _ _ _ (field_placed member)

theorem fields_ordered (z : Bool) (ids : Ids) (off : ℕ) :
    (fields z ids off).Pairwise fun first second =>
      first.1 + (sizetype z first.2).size ≤ second.1 := by
  have ordered := (placed_ordered (ids.items z) off).sublist (sizeids_eq z ids off 1 le_rfl).2.2
  exact List.pairwise_map.mp ordered

theorem field_align_dvd (member : (offset, ty) ∈ fields z ids off) :
    (sizetype z ty).align ∣ (sizeids z ids off 1).al := by
  have found := (sizeids_eq z ids off 1 le_rfl).2.1
  rw [max_eq_right (alignment_positive _)] at found
  rw [found]
  have placed := field_placed member
  exact @dvd_alignment (ids.items z) (item z ty) (List.of_mem_zip placed).2

theorem sizerecord_size (z : Bool) {ids : Placement} (isPower : ids.al.isPowerOfTwo) :
    ids.off ≤ (sizerecord z ids).size := by
  cases z with
  | false =>
      have positive := Nat.pos_of_isPowerOfTwo isPower
      exact (le_roundUp positive ids.off).trans (align_eq positive ids.off).ge
  | true => exact (le_roundUp (by decide) ids.off).trans (align_eq (by decide) ids.off).ge

theorem sizepick_spec (z : Bool) {common picked : Placement}
    (isCommon : common.al.isPowerOfTwo) (isPicked : picked.al.isPowerOfTwo) :
    picked.off ≤ (sizepick z common picked).size ∧
      iby2wd ∣ (sizepick z common picked).align := by
  have isPower := sizepick_isPower z isCommon isPicked
  have positive := Nat.pos_of_isPowerOfTwo isPower
  have rounds : (sizepick z common picked).size =
      align picked.off (sizepick z common picked).align := by
    cases z <;> rfl
  have word : iby2wd ≤ (sizepick z common picked).align := by
    unfold sizepick
    dsimp only
    split_ifs <;> simp only [iby2wd, iby2lg] at * <;> omega
  constructor
  · rw [rounds, align_eq positive]
    exact le_roundUp positive picked.off
  · exact dvd_of_le ⟨2, rfl⟩ isPower word

/-- Fields of a pick lie behind its tag and inside of its values. -/
theorem pickfield_placed {own tof : _} (member : (offset, ty) ∈ pickfields z ids own) :
    (sizetype z ty).align ∣ offset ∧
      offset + (sizetype z ty).size ≤ (sizetype z (.tadtpick ids own tof)).size := by
  have whole := (sizepick_spec z (sizeids_isPower z ids iby2wd 1 ⟨0, rfl⟩)
    (sizeids_isPower z own (sizeids z ids iby2wd 1).off 1 ⟨0, rfl⟩)).1
  have behind : (sizeids z ids iby2wd 1).off ≤
      (sizeids z own (sizeids z ids iby2wd 1).off 1).off := by
    rw [(sizeids_eq z own _ 1 le_rfl).1]
    exact le_finish _ _
  rw [sizetype]
  rcases List.mem_append.mp member with isCommon | isOwn
  · have inside := field_inside isCommon
    exact ⟨field_aligned isCommon, by omega⟩
  · have inside := field_inside isOwn
    exact ⟨field_aligned isOwn, by omega⟩

/-- A pointer is a whole word of the value, at a multiple of a word. -/
theorem Points.word {t : Ty} {place : ℕ} (holds : Points z t place) :
    iby2wd ∣ place ∧ place + iby2wd ≤ (sizetype z t).size ∧ iby2wd ∣ (sizetype z t).align := by
  induction holds with
  | @pointer kind isptr =>
      rw [sizetype, Kind.extent_of_isptr isptr]
      decide
  | @field kind ids offset inner ty member holds ih =>
      obtain ⟨isWord, inside, aligned⟩ := ih
      have behind := field_inside member
      have whole := sizerecord_size z (sizeids_isPower z ids 0 1 ⟨0, rfl⟩)
      refine ⟨Nat.dvd_add (aligned.trans (field_aligned member)) isWord, ?_, ?_⟩
      · rw [sizetype]
        omega
      · rw [sizetype]
        cases z with
        | false => exact aligned.trans (field_align_dvd member)
        | true => exact ⟨2, rfl⟩
  | @pick ids own tof offset inner ty member holds ih =>
      obtain ⟨isWord, inside, aligned⟩ := ih
      obtain ⟨isAligned, whole⟩ := @pickfield_placed z ids offset ty own tof member
      refine ⟨Nat.dvd_add (aligned.trans isAligned) isWord, by omega, ?_⟩
      rw [sizetype]
      exact (sizepick_spec z (sizeids_isPower z ids _ 1 ⟨0, rfl⟩)
        (sizeids_isPower z own _ 1 ⟨0, rfl⟩)).2
  | @channel labs place isptr =>
      have inside := (List.getElem?_eq_some_iff.mp isptr).1
      simp only [sizetype, iby2wd]
      omega
  | @start nlab place inside =>
      simp only [sizetype, iby2wd]
      omega
  | @stop nlab place inside =>
      simp only [sizetype, iby2wd]
      omega

end Bounds

/-- The declarations of an ADT: fields, functions and constants. -/
def Ids.AreMembers : Ids → Prop
  | .nil => True
  | .cons store _ _ next => (store = .dfield ∨ store = .dfn ∨ store = .dconst) ∧ next.AreMembers

/-- The copies of the fields that a tuple is made of. -/
def Ids.dfields : Ids → Ids
  | .nil => .nil
  | .cons store linked ty next =>
      if store = .dfield then .cons store linked ty next.dfields else next.dfields

def Ids.append : Ids → Ids → Ids
  | .nil, others => others
  | .cons store linked ty next, others => .cons store linked ty (next.append others)

/-- The fields of the tuple that a value with a tag is made from. -/
def pickcon (ids own : Ids) : Ids :=
  .cons .dfield false (.plain .tint) (ids.dfields.append own.dfields)

def mkadtpickcon (ids own : Ids) : Ty :=
  .record .ttuple (pickcon ids own)

mutual

/-- The records in a type have members, and the tuple of a pick is the one of `mkadtpickcon`. -/
def Ty.Proper : Ty → Prop
  | .record _ ids => ids.AreMembers ∧ ids.Proper
  | .tadtpick ids own tof =>
      ids.AreMembers ∧ own.AreMembers ∧ tof = mkadtpickcon ids own ∧ tof.Proper
  | _ => True

def Ids.Proper : Ids → Prop
  | .nil => True
  | .cons _ _ ty next => ty.Proper ∧ next.Proper

end

section Picks

variable (z : Bool)

theorem dfields_stored {ids : Ids} (members : ids.AreMembers) :
    ids.dfields.stored = ids.stored := by
  match ids with
  | .nil => rfl
  | .cons store linked ty next =>
      have later := dfields_stored members.2
      rcases members.1 with rfl | rfl | rfl
      · rw [Ids.dfields, if_pos rfl, Ids.stored, Ids.stored, later]
      · exact later
      · exact later

theorem append_stored (ids others : Ids) :
    (ids.append others).stored = ids.stored ++ others.stored := by
  match ids with
  | .nil => rfl
  | .cons store linked ty next =>
      rw [Ids.append, Ids.stored, Ids.stored, append_stored next others]
      cases storespace store <;> rfl

/-- Offsets do not depend on the alignment found so far. -/
theorem sizeids_offsets (ids : Ids) (off al other : ℕ) :
    (sizeids z ids off al).offsets = (sizeids z ids off other).offsets := by
  match ids with
  | .nil => rfl
  | .cons store linked ty next =>
      cases isStored : storespace store with
      | false =>
          rw [sizeids_cons_of_not z isStored, sizeids_cons_of_not z isStored]
          dsimp only
          rw [sizeids_offsets next off al other]
      | true =>
          rw [sizeids_cons z isStored, sizeids_cons z isStored]
          dsimp only
          rw [sizeids_offsets next _ (max (item z ty).align al) (max (item z ty).align other)]

theorem fields_cons (linked : Bool) (ty : Ty) (next : Ids) (off : ℕ) :
    fields z (.cons .dfield linked ty next) off =
      let place := roundUp off (item z ty).align
      (place, ty) :: fields z next (place + (item z ty).size) := by
  unfold fields
  rw [sizeids_cons z rfl]
  dsimp only [visited]
  rw [sizeids_offsets z next _ (max (item z ty).align 1) 1]
  rfl

/-- The fields of members are the stored ones, each where it is placed. -/
theorem fields_members {ids : Ids} (members : ids.AreMembers) (off : ℕ) :
    fields z ids off = (offsets (ids.items z) off).zip ids.stored := by
  match ids with
  | .nil => rfl
  | .cons store linked ty next =>
      have later : ∀ off, fields z next off = (offsets (next.items z) off).zip next.stored :=
        fun off => fields_members members.2 off
      rcases members.1 with rfl | rfl | rfl
      · have isStored : storespace .dfield = true := rfl
        rw [fields_cons, items_cons z rfl, offsets, Ids.stored, if_pos isStored]
        dsimp only
        rw [later, List.zip_cons_cons]
      · exact later off
      · exact later off

theorem dfields_members (ids : Ids) : ids.dfields.AreMembers := by
  match ids with
  | .nil => trivial
  | .cons store linked ty next =>
      rw [Ids.dfields]
      split_ifs with isField
      · exact ⟨Or.inl isField, dfields_members next⟩
      · exact dfields_members next

theorem append_members {ids others : Ids} (members : ids.AreMembers)
    (otherMembers : others.AreMembers) : (ids.append others).AreMembers := by
  match ids with
  | .nil => exact otherMembers
  | .cons store linked ty next => exact ⟨members.1, append_members members.2 otherMembers⟩

theorem sizeids_off (ids : Ids) (off : ℕ) :
    (sizeids z ids off 1).off = finish (ids.items z) off :=
  (sizeids_eq z ids off 1 le_rfl).1

theorem sizeids_al (ids : Ids) (off : ℕ) :
    (sizeids z ids off 1).al = alignment (ids.items z) :=
  (sizeids_eq z ids off 1 le_rfl).2.1.trans (max_eq_right (alignment_positive _))

section Tuple

variable {ids own : Ids} (members : ids.AreMembers) (picked : own.AreMembers)
include members picked

theorem pickcon_items : (ids.dfields.append own.dfields).items z = ids.items z ++ own.items z := by
  rw [Ids.items, append_stored, dfields_stored members, dfields_stored picked, List.map_append]
  rfl

theorem mkadtpickcon_extent (tof : Ty) :
    sizetype z (mkadtpickcon ids own) = sizetype z (.tadtpick ids own tof) := by
  have items := pickcon_items z members picked
  have word : (item z (.plain .tint)).align = iby2wd := by
    simp only [item, sizetype, Kind.extent]
  have start : roundUp 0 (item z (.plain .tint)).align + (item z (.plain .tint)).size = iby2wd := by
    simp only [item, sizetype, Kind.extent]
    rfl
  have off : (sizeids z (pickcon ids own) 0 1).off =
      (sizeids z own (sizeids z ids iby2wd 1).off 1).off := by
    rw [pickcon, sizeids_off, sizeids_off, sizeids_off, items_cons z rfl, items, finish, start,
      finish_append]
  have al : (sizeids z (pickcon ids own) 0 1).al =
      max iby2wd (max (alignment (ids.items z)) (alignment (own.items z))) := by
    rw [pickcon, sizeids_al, items_cons z rfl, items, alignment, alignment_append, word]
  rw [mkadtpickcon, sizetype, sizetype]
  unfold sizerecord sizepick
  dsimp only
  rw [off, al, sizeids_al, sizeids_al]
  cases z with
  | true => rfl
  | false =>
      have widest : (if alignment (own.items false) <
            (if alignment (ids.items false) < iby2wd then iby2wd else alignment (ids.items false))
          then (if alignment (ids.items false) < iby2wd then iby2wd
            else alignment (ids.items false))
          else alignment (own.items false)) =
          max iby2wd (max (alignment (ids.items false)) (alignment (own.items false))) := by
        split_ifs <;> omega
      rw [widest]

theorem mkadtpickcon_fields :
    fields z (pickcon ids own) 0 = (0, .plain .tint) :: pickfields z ids own := by
  have start : roundUp 0 (item z (.plain .tint)).align + (item z (.plain .tint)).size = iby2wd := by
    simp only [item, sizetype, Kind.extent]
    rfl
  have same : (offsets (ids.items z) iby2wd).length = ids.stored.length := by
    rw [offsets_length, Ids.items, List.length_map]
  have stored : (ids.dfields.append own.dfields).stored = ids.stored ++ own.stored := by
    rw [append_stored, dfields_stored members, dfields_stored picked]
  have members' := append_members (dfields_members ids) (dfields_members own)
  have later : fields z (ids.dfields.append own.dfields) iby2wd = pickfields z ids own := by
    calc fields z (ids.dfields.append own.dfields) iby2wd
        = (offsets (ids.items z ++ own.items z) iby2wd).zip (ids.stored ++ own.stored) := by
          rw [fields_members z members', pickcon_items z members picked, stored]
      _ = (offsets (ids.items z) iby2wd).zip ids.stored ++
            (offsets (own.items z) (finish (ids.items z) iby2wd)).zip own.stored := by
          rw [offsets_append, List.zip_append same]
      _ = pickfields z ids own := by
          rw [← fields_members z members, ← sizeids_off, ← fields_members z picked]
          rfl
  have tag : roundUp 0 (item z (.plain .tint)).align = 0 := by
    simp only [item, sizetype, Kind.extent]
    rfl
  rw [pickcon, fields_cons]
  dsimp only
  rw [start, later, tag]

theorem mkadtpickcon_points (tof : Ty) (place : ℕ) :
    Points z (mkadtpickcon ids own) place ↔ Points z (.tadtpick ids own tof) place := by
  have same := mkadtpickcon_fields z members picked
  constructor
  · intro points
    cases points with
    | @field _ _ offset inner ty member holds =>
        rw [same] at member
        rcases List.mem_cons.mp member with isTag | isField
        · cases isTag
          cases holds with
          | pointer isptr => cases isptr
        · exact .pick isField holds
  · intro points
    cases points with
    | @pick _ _ _ offset inner ty member holds =>
        exact .field (same ▸ List.mem_cons_of_mem _ member) holds

end Tuple

/-- The tuple of a pick has its tag first and then the fields of the pick where they are
accessed, one behind the other.  It is as large and aligned as the pick, and its values hold
pointers where those of the pick do. -/
theorem pick_as_tuple {ids own : Ids} (members : ids.AreMembers) (picked : own.AreMembers) :
    let tof := mkadtpickcon ids own
    let t := Ty.tadtpick ids own tof
    (sizetype z t).size < maxint →
    sizetype z tof = sizetype z t ∧
      fields z (pickcon ids own) 0 = (0, .plain .tint) :: pickfields z ids own ∧
      ((0, .plain .tint) :: pickfields z ids own).Pairwise (fun first second =>
        first.1 + (sizetype z first.2).size ≤ second.1) ∧
      (∀ field ∈ pickfields z ids own, field.1 + (sizetype z field.2).size < maxint) ∧
      ∀ place, Points z tof place ↔ Points z t place := by
  intro tof t fits
  have same := mkadtpickcon_fields z members picked
  refine ⟨mkadtpickcon_extent z members picked tof, same, same ▸ fields_ordered z _ 0, ?_,
    mkadtpickcon_points z members picked tof⟩
  intro field member
  exact (pickfield_placed member).2.trans_lt fits

end Picks

/-- The declarations `b: byte; f: fn();`. -/
def byteIds : Ids :=
  .cons .dfield false (.plain .tbyte) (.cons .dfn false (.plain .tfn) .nil)

/-- The declaration of a tag, `s: string;`. -/
def stringIds : Ids :=
  .cons .dfield false (.plain .tstring) .nil

/-- An ADT with a byte and a function, with a tag that has a string. -/
def byteString : Ty :=
  .tadtpick byteIds stringIds (mkadtpickcon byteIds stringIds)

theorem byteString_proper : byteString.Proper := by
  simp [byteString, byteIds, stringIds, Ty.Proper, Ids.Proper, Ids.AreMembers, mkadtpickcon,
    pickcon, Ids.dfields, Ids.append]

theorem byteString_points : Points false byteString 8 := by
  have fields : pickfields false byteIds stringIds =
      [(4, .plain .tbyte), (8, .plain .tstring)] := rfl
  exact @Points.pick false byteIds stringIds _ 8 0 (.plain .tstring) (by simp [fields])
    (.pointer rfl)

theorem byte_string_pick :
    sizetype false (mkadtpickcon byteIds stringIds) = ⟨12, 4⟩ ∧
      Points false (mkadtpickcon byteIds stringIds) 8 := by
  have size : sizetype false byteString = ⟨12, 4⟩ := by decide
  obtain ⟨extent, -, -, -, points⟩ := @pick_as_tuple false byteIds stringIds
    ⟨Or.inl rfl, Or.inr (Or.inl rfl), trivial⟩ ⟨Or.inl rfl, trivial⟩
    (size ▸ by decide)
  exact ⟨extent.trans size, (points 8).mpr byteString_points⟩

end Disvm.TypeLayout
