import Disvm.FrameLayout

/-!
# The variables of one tuple

The variables that one `:=` declares are placed one behind the other in the frame.  A tuple is
moved to all of them at once, and reaches each as the field that it stands for if the type of the
tuple has them at the same offsets.
-/

namespace Disvm.FrameLayout

open RecordLayout TypeLayout TypeMaps SharedLocals

section Blocks

variable {z : Bool}

/-- A list that does not begin inside of a block. -/
def Starts (ds : List Decl) : Prop :=
  following ds = []

theorem starts_blocks (d : List Block) : Starts (d.flatMap Block.decls) := by
  cases d with
  | nil => rfl
  | cons block d =>
      unfold Starts following Block.decls
      rw [List.flatMap_cons, List.cons_append, List.takeWhile_cons_of_neg]
      have isHead := block.isHead
      simp only [decide_eq_true_eq]
      omega

theorem following_append (ds : List Decl) {rest : List Decl} (starts : Starts rest) :
    following (ds ++ rest) = following ds := by
  induction ds with
  | nil => exact starts
  | cons d ds ih =>
      unfold following at ih ⊢
      rw [List.cons_append, List.takeWhile_cons, List.takeWhile_cons, ih]

/-- The loop goes from block to block. -/
theorem idoffsetsLoop_append (ds : List Decl) {rest : List Decl} (starts : Starts rest)
    (s : Offsets) :
    idoffsetsLoop z (ds ++ rest) s = idoffsetsLoop z rest (idoffsetsLoop z ds s) := by
  induction ds generalizing s with
  | nil => rfl
  | cons d ds ih =>
      have same : placeDecl z d (ds ++ rest) s = placeDecl z d ds s := by
        unfold placeDecl
        rw [following_append ds starts]
      rw [List.cons_append, idoffsetsLoop, idoffsetsLoop, same, ih]

/-- The other variables of a tuple follow each other, and the block is filled up. -/
theorem followers_loop {ds : List Decl} (some : ds ≠ []) (nids : ∀ d ∈ ds, d.nid = 0)
    (own : ∀ d ∈ ds, linkOf d = none) (stored : ∀ d ∈ ds, storespace d.store = true)
    (refs : (ds.map Decl.ref).Nodup) {s : Offsets} (positive : 0 < s.algn) :
    (idoffsetsLoop z ds s).offset = roundUp (finish (items z ds) s.offset) s.algn ∧
      ds.map (fun d => (idoffsetsLoop z ds s).placed d.ref) = offsets (items z ds) s.offset ∧
      ∀ ref ∉ ds.map Decl.ref, (idoffsetsLoop z ds s).placed ref = s.placed ref := by
  induction ds generalizing s with
  | nil => exact absurd rfl some
  | cons d ds ih =>
      obtain ⟨isZero, zeros⟩ := List.forall_mem_cons.mp nids
      obtain ⟨isOwn, owns⟩ := List.forall_mem_cons.mp own
      obtain ⟨isStored, others⟩ := List.forall_mem_cons.mp stored
      rw [List.map_cons, List.nodup_cons] at refs
      have single : ¬ d.nid > 1 := by omega
      have isWide : wide z d ds = (item z d.ty).align := if_neg single
      have step := placeDecl_eq z isOwn ds s
      rw [isWide, if_neg single] at step
      cases ds with
      | nil =>
          have last : d.nid = 0 ∧ following [] = [] := ⟨isZero, rfl⟩
          dsimp only at step
          rw [if_pos last] at step
          rw [idoffsetsLoop, if_pos isStored, step]
          refine ⟨align_eq positive _, ?_, ?_⟩
          · show [Function.update s.placed d.ref _ d.ref] = _
            rw [Function.update_self]
            rfl
          · intro ref unknown
            rw [List.map_singleton, List.mem_singleton] at unknown
            exact Function.update_of_ne unknown _ _
      | cons e es =>
          have isFollower : e.nid = 0 := zeros e List.mem_cons_self
          have inside : ¬ (d.nid = 0 ∧ following (e :: es) = []) := by
            unfold following
            rw [List.takeWhile_cons_of_pos (by simpa using isFollower)]
            simp
          dsimp only at step
          rw [if_neg inside] at step
          rw [idoffsetsLoop, if_pos isStored, step]
          obtain ⟨isOffset, isPlaced, outside⟩ := @ih (by simp) zeros owns others refs.2
            ⟨roundUp s.offset (item z d.ty).align + (item z d.ty).size, s.algn,
              Function.update s.placed d.ref (roundUp s.offset (item z d.ty).align)⟩ positive
          refine ⟨isOffset, ?_, ?_⟩
          · rw [List.map_cons, isPlaced, outside d.ref refs.1]
            exact congrArg (· :: _) (Function.update_self _ _ _)
          · intro ref unknown
            rw [List.map_cons, List.mem_cons, not_or] at unknown
            rw [outside ref unknown.2]
            exact Function.update_of_ne unknown.1 _ _

/-- The size of a block of variables. -/
def blockSize (z : Bool) (ds : List Decl) : ℕ :=
  roundUp (finish (items z ds) 0) (alignment (items z ds))

/-- The variables of one `:=` are placed as the fields of a flat tuple. -/
theorem block_loop {block : Block} (several : block.rest ≠ [])
    (refs : (block.decls.map Decl.ref).Nodup) (s : Offsets) :
    ∃ base, s.offset ≤ base ∧ alignment (items z block.decls) ∣ base ∧
      (idoffsetsLoop z block.decls s).offset = base + blockSize z block.decls ∧
      block.decls.map (fun d => (idoffsetsLoop z block.decls s).placed d.ref) =
        (offsets (items z block.decls) 0).map (base + ·) := by
  obtain ⟨isHead, others⟩ := List.forall_mem_cons.mp (block.locals several)
  obtain ⟨ownHead, owns⟩ := List.forall_mem_cons.mp (block.unlinked several)
  have storedOf : ∀ {d : Decl}, d.store = .dlocal ∧ 0 < d.refs → storespace d.store = true :=
    fun both => both.1 ▸ rfl
  have linkOfNone : ∀ {d : Decl}, d.link = none → linkOf d = none := by
    intro d own
    rw [linkOf, own, ite_self]
  have isSeveral : block.head.nid > 1 := by
    have nonempty := List.length_pos_iff.mpr several
    have isNid := block.isHead
    omega
  have isFollowing : following block.rest = block.rest := by
    apply List.takeWhile_eq_self_iff.mpr
    intro d member
    exact decide_eq_true (block.followers d member)
  have isWide : wide z block.head block.rest = alignment (items z block.decls) := by
    rw [wide, if_pos isSeveral, isFollowing, Block.decls]
  have positive := alignment_positive (items z block.decls)
  have notLast : ¬ (block.head.nid = 0 ∧ following block.rest = []) := by omega
  have step := placeDecl_eq z (linkOfNone ownHead) block.rest s
  rw [isWide, if_pos isSeveral] at step
  dsimp only at step
  rw [if_neg notLast] at step
  have headDvd : (item z block.head.ty).align ∣ alignment (items z block.decls) :=
    dvd_alignment _ List.mem_cons_self
  unfold Block.decls at refs
  rw [List.map_cons, List.nodup_cons] at refs
  obtain ⟨isOffset, isPlaced, outside⟩ := @followers_loop z block.rest several block.followers
    (fun d member => linkOfNone (owns d member)) (fun d member => storedOf (others d member))
    refs.2 (placeDecl z block.head block.rest s) (by rw [step]; exact positive)
  have isLoop : idoffsetsLoop z block.decls s =
      idoffsetsLoop z block.rest (placeDecl z block.head block.rest s) := by
    rw [Block.decls, idoffsetsLoop, if_pos (storedOf isHead)]
  generalize isBase : roundUp s.offset (alignment (items z block.decls)) = base at step
  have baseDvd : alignment (items z block.decls) ∣ base := isBase ▸ dvd_roundUp _ _
  obtain ⟨isOffsets, isFinish⟩ := offsets_add (items z block.decls) 0 baseDvd
  rw [Nat.add_zero] at isOffsets isFinish
  have here : roundUp base (item z block.head.ty).align = base :=
    roundUp_of_dvd (item z block.head.ty).positive (headDvd.trans baseDvd)
  have split : items z block.decls = item z block.head.ty :: items z block.rest := rfl
  refine ⟨base, isBase ▸ le_roundUp positive _, baseDvd, ?_, ?_⟩
  · rw [isLoop, isOffset, step]
    dsimp only
    have whole : finish (items z block.rest) (base + (item z block.head.ty).size) =
        base + finish (items z block.decls) 0 := by
      rw [← isFinish, split, finish, here]
    rw [whole, roundUp_add positive baseDvd, blockSize]
  · rw [isLoop, ← isOffsets]
    have isRest : block.decls = block.head :: block.rest := rfl
    rw [isRest, List.map_cons, isPlaced, outside _ refs.1, step]
    dsimp only
    rw [Function.update_self]
    have whole : offsets (items z block.decls) base =
        base :: offsets (items z block.rest) (base + (item z block.head.ty).size) := by
      rw [split, offsets, here]
    exact whole.symm

theorem algn_positive (ds : List Decl) {s : Offsets} (positive : 0 < s.algn) :
    0 < (idoffsetsLoop z ds s).algn := by
  induction ds generalizing s with
  | nil => exact positive
  | cons d ds ih =>
      rw [idoffsetsLoop]
      apply ih
      split_ifs
      · cases isLink : linkOf d with
        | none =>
            obtain ⟨-, -, -, -, -, isAlgn⟩ := placeDecl_own z isLink ds positive
            exact isAlgn
        | some link =>
            rw [placeDecl_linked z isLink]
            exact positive
      · exact positive

theorem targetsFirst_append {ds rest : List Decl} (targets : TargetsFirst (ds ++ rest)) :
    TargetsFirst ds ∧ TargetsFirst rest := by
  induction ds with
  | nil => exact ⟨trivial, targets⟩
  | cons d ds ih =>
      obtain ⟨first, others⟩ := targets
      refine ⟨⟨fun ref isLink member => first ref isLink ?_, (ih others).1⟩, (ih others).2⟩
      show ref ∈ ((d :: ds) ++ rest).map Decl.ref
      rw [List.map_append]
      exact List.mem_append_left _ member

end Blocks

mutual

/-- The left side of a `:=`. -/
inductive Pattern where
  | oname (decl : Decl)
  | otuple (parts : Patterns)

inductive Patterns where
  | one (part : Pattern)
  | cons (part : Pattern) (next : Patterns)

end

mutual

/-- The names in the order in which `recdasdecl` declares them. -/
def Pattern.names : Pattern → List Decl
  | .oname d => [d]
  | .otuple parts => parts.names

def Patterns.names : Patterns → List Decl
  | .one part => part.names
  | .cons part next => part.names ++ next.names

end

def Pattern.IsName : Pattern → Prop
  | .oname _ => True
  | .otuple _ => False

/-- No part is a tuple. -/
def Patterns.Flat : Patterns → Prop
  | .one part => part.IsName
  | .cons part next => part.IsName ∧ next.Flat

section Patterns

variable (z : Bool)

mutual

/-- `declasinfer` for tuples and ADTs: every name has the type that is inferred for it. -/
def declasinfer : Pattern → Ty → Prop
  | .oname d, t => d.ty = t
  | .otuple parts, .record .ttuple ids => infers parts (fields z ids 0)
  | .otuple parts, .record .tadt ids => infers parts (fields z ids 0)
  | .otuple _, _ => False

/-- The loop of `declasinfer` over fields. -/
def infers : Patterns → List (ℕ × Ty) → Prop
  | .one part, [(_, ty)] => declasinfer part ty
  | .cons part next, (_, ty) :: fields => declasinfer part ty ∧ infers next fields
  | _, _ => False

end

mutual

/-- Where the names are in a value of the type. -/
def nameOffsets : Pattern → Ty → List ℕ
  | .oname _, _ => [0]
  | .otuple parts, .record _ ids => partOffsets parts (fields z ids 0)
  | .otuple _, _ => []

def partOffsets : Patterns → List (ℕ × Ty) → List ℕ
  | .one part, (offset, ty) :: _ => (nameOffsets part ty).map (offset + ·)
  | .cons part next, (offset, ty) :: fields =>
      (nameOffsets part ty).map (offset + ·) ++ partOffsets next fields
  | _, [] => []

end

/-- The names are in a value of the type where they are in a flat tuple. -/
def InLine (p : Pattern) (t : Ty) : Prop :=
  nameOffsets z p t = offsets (items z p.names) 0

instance (p : Pattern) (t : Ty) : Decidable (InLine z p t) :=
  inferInstanceAs (Decidable (_ = _))

variable {z}

theorem items_append (ds others : List Decl) :
    items z (ds ++ others) = items z ds ++ items z others :=
  List.map_append

mutual

theorem nameOffsets_length : ∀ {p : Pattern} {t : Ty}, declasinfer z p t →
    (nameOffsets z p t).length = p.names.length
  | .oname _, _, _ => rfl
  | .otuple _, .record .ttuple _, inferred => partOffsets_length inferred
  | .otuple _, .record .tadt _, inferred => partOffsets_length inferred

theorem partOffsets_length : ∀ {parts : Patterns} {fields : List (ℕ × Ty)}, infers z parts fields →
    (partOffsets z parts fields).length = parts.names.length
  | .one part, [(offset, ty)], inferred => by
      rw [partOffsets, List.length_map, Patterns.names]
      exact nameOffsets_length inferred
  | .cons part next, (offset, ty) :: fields, inferred => by
      rw [partOffsets, List.length_append, List.length_map, Patterns.names, List.length_append,
        nameOffsets_length inferred.1, partOffsets_length inferred.2]

end

/-- The fields of a record as they are placed. -/
theorem fields_eq {ids : Ids} (members : ids.AreMembers) (off : ℕ) :
    (fields z ids off).map Prod.fst = offsets (ids.items z) off ∧
      (fields z ids off).map (fun field => item z field.2) = ids.items z := by
  have same : (offsets (ids.items z) off).length = ids.stored.length := by
    rw [offsets_length, Ids.items, List.length_map]
  rw [fields_members z members]
  constructor
  · exact List.map_fst_zip same.le
  · have types : ((offsets (ids.items z) off).zip ids.stored).map Prod.snd = ids.stored :=
      List.map_snd_zip same.ge
    calc ((offsets (ids.items z) off).zip ids.stored).map (fun field => item z field.2)
        = (((offsets (ids.items z) off).zip ids.stored).map Prod.snd).map (item z) := by
          rw [List.map_map]
          rfl
      _ = ids.items z := by rw [types, Ids.items]

/-- Names alone are in a value where they are in a flat tuple. -/
theorem flat_parts {parts : Patterns} {entries : List (ℕ × Ty)} (flat : parts.Flat)
    (inferred : infers z parts entries) :
    partOffsets z parts entries = entries.map Prod.fst ∧
      items z parts.names = entries.map fun field => item z field.2 := by
  match parts, entries with
  | .one (.oname d), [(offset, ty)] =>
      obtain rfl : d.ty = ty := inferred
      exact ⟨rfl, rfl⟩
  | .one (.otuple _), _ => exact absurd flat id
  | .cons (.oname d) next, (offset, ty) :: entries =>
      obtain ⟨isTy, later⟩ := inferred
      obtain rfl : d.ty = ty := isTy
      obtain ⟨sameOffsets, sameItems⟩ := flat_parts flat.2 later
      rw [partOffsets, Patterns.names, items_append, sameOffsets, sameItems]
      exact ⟨rfl, rfl⟩
  | .cons (.otuple _) _, _ => exact absurd flat.1 id

theorem inLine_of_flat {parts : Patterns} {t : Ty} (flat : parts.Flat) (proper : t.Proper)
    (inferred : declasinfer z (.otuple parts) t) : InLine z (.otuple parts) t := by
  have ofRecord : ∀ {kind : RecordKind} {ids : Ids}, ids.AreMembers →
      infers z parts (fields z ids 0) → InLine z (.otuple parts) (.record kind ids) := by
    intro kind ids members isInferred
    obtain ⟨sameOffsets, sameItems⟩ := flat_parts flat isInferred
    obtain ⟨isOffsets, isItems⟩ := fields_eq (z := z) members 0
    unfold InLine
    rw [nameOffsets, Pattern.names, sameOffsets, sameItems, isOffsets, isItems]
  match t with
  | .record .ttuple ids => exact ofRecord proper.1 inferred
  | .record .tadt ids => exact ofRecord proper.1 inferred

end Patterns
section Sizes

theorem record_extent (kind : RecordKind) (ids : Ids) :
    sizetype false (.record kind ids) =
      ⟨roundUp (finish (ids.items false) 0) (alignment (ids.items false)),
        alignment (ids.items false)⟩ := by
  have positive := alignment_positive (ids.items false)
  rw [sizetype, sizerecord, if_neg Bool.false_ne_true, sizeids_off, sizeids_al, align_eq positive]

/-- The items of some fields. -/
def entryItems (entries : List (ℕ × Ty)) : List Item :=
  entries.map fun entry => item false entry.2

theorem entryItems_fields {ids : Ids} (members : ids.AreMembers) :
    entryItems (fields false ids 0) = ids.items false :=
  (fields_eq members 0).2

theorem placed_entries {ids : Ids} (members : ids.AreMembers) :
    (fields false ids 0).map Prod.fst = offsets (entryItems (fields false ids 0)) 0 := by
  rw [entryItems_fields members]
  exact (fields_eq members 0).1

mutual

/-- A record is aligned as the names in it are. -/
theorem align_names : ∀ {p : Pattern} {t : Ty}, declasinfer false p t → t.Proper →
    (sizetype false t).align = alignment (items false p.names)
  | .oname d, _, rfl, _ => (max_eq_left (item false d.ty).positive).symm
  | .otuple _, .record .ttuple _, inferred, proper => by
      rw [record_extent, ← (fields_eq proper.1 0).2]
      exact align_parts inferred fun _ member => visited_proper proper.2 member
  | .otuple _, .record .tadt _, inferred, proper => by
      rw [record_extent, ← (fields_eq proper.1 0).2]
      exact align_parts inferred fun _ member => visited_proper proper.2 member

theorem align_parts : ∀ {parts : Patterns} {entries : List (ℕ × Ty)},
    infers false parts entries → (∀ entry ∈ entries, entry.2.Proper) →
    alignment (entryItems entries) = alignment (items false parts.names)
  | .one part, [(offset, ty)], inferred, proper => by
      have first := align_names inferred (proper _ List.mem_cons_self)
      rw [Patterns.names, ← first]
      exact max_eq_left (item false ty).positive
  | .cons part next, (offset, ty) :: entries, inferred, proper => by
      obtain ⟨isFirst, areOthers⟩ := List.forall_mem_cons.mp proper
      have first := align_names inferred.1 isFirst
      have later := align_parts inferred.2 areOthers
      rw [Patterns.names, items_append, alignment_append, ← first, ← later]
      rfl

end

theorem finish_record {kind : RecordKind} {ids : Ids} {last base : ℕ}
    (aligned : (sizetype false (.record kind ids)).align ∣ base)
    (behind : last ≤ base + finish (ids.items false) 0)
    (near : base + finish (ids.items false) 0 ≤ roundUp last (alignment (ids.items false))) :
    last ≤ base + (sizetype false (.record kind ids)).size ∧
      base + (sizetype false (.record kind ids)).size ≤
        roundUp last (sizetype false (.record kind ids)).align := by
  have positive := alignment_positive (ids.items false)
  rw [record_extent] at aligned ⊢
  dsimp only at aligned ⊢
  rw [← roundUp_add positive aligned]
  exact ⟨behind.trans (le_roundUp positive _), roundUp_le positive near (dvd_roundUp _ _)⟩

mutual

/-- A value that has its names in line ends with the last of them, up to its alignment. -/
theorem finish_names : ∀ {p : Pattern} {t : Ty}, declasinfer false p t → t.Proper →
    ∀ {base start : ℕ}, (sizetype false t).align ∣ base →
      (nameOffsets false p t).map (base + ·) = offsets (items false p.names) start →
      finish (items false p.names) start ≤ base + (sizetype false t).size ∧
        base + (sizetype false t).size ≤
          roundUp (finish (items false p.names) start) (sizetype false t).align
  | .oname d, _, rfl, _, base, start, _, same => by
      have isBase : base = roundUp start (item false d.ty).align := (List.cons.inj same).1
      have isFinish : finish (items false [d]) start = base + (sizetype false d.ty).size := by
        rw [isBase]
        rfl
      rw [Pattern.names, isFinish]
      exact ⟨le_rfl, le_roundUp (item false d.ty).positive _⟩
  | .otuple _, .record .ttuple _, inferred, proper, base, start, aligned, same => by
      obtain ⟨behind, near⟩ := finish_parts inferred
        (fun _ member => visited_proper proper.2 member) (placed_entries proper.1)
        (dvd_of_eq (congrArg alignment (entryItems_fields proper.1))) (alignment_positive _)
        (by rwa [record_extent] at aligned) same
      rw [entryItems_fields proper.1] at behind near
      exact finish_record aligned behind near
  | .otuple _, .record .tadt _, inferred, proper, base, start, aligned, same => by
      obtain ⟨behind, near⟩ := finish_parts inferred
        (fun _ member => visited_proper proper.2 member) (placed_entries proper.1)
        (dvd_of_eq (congrArg alignment (entryItems_fields proper.1))) (alignment_positive _)
        (by rwa [record_extent] at aligned) same
      rw [entryItems_fields proper.1] at behind near
      exact finish_record aligned behind near

theorem finish_parts : ∀ {parts : Patterns} {entries : List (ℕ × Ty)},
    infers false parts entries → (∀ entry ∈ entries, entry.2.Proper) →
    ∀ {off start base al : ℕ}, entries.map Prod.fst = offsets (entryItems entries) off →
      alignment (entryItems entries) ∣ al → 0 < al → al ∣ base →
      (partOffsets false parts entries).map (base + ·) =
        offsets (items false parts.names) start →
      finish (items false parts.names) start ≤ base + finish (entryItems entries) off ∧
        base + finish (entryItems entries) off ≤
          roundUp (finish (items false parts.names) start) al
  | .one part, [(offset, ty)], inferred, proper, off, start, base, al, isPlaced, divides, positive,
      aligned, same => by
      obtain rfl : offset = roundUp off (item false ty).align := (List.cons.inj isPlaced).1
      have isFirst : (sizetype false ty).align ∣ al :=
        (dvd_alignment (entryItems [(_, ty)]) List.mem_cons_self).trans divides
      have names : (nameOffsets false part ty).map
          (base + roundUp off (item false ty).align + ·) =
          offsets (items false part.names) start := by
        rw [← Patterns.names, ← same, partOffsets, List.map_map]
        simp only [Function.comp_def, add_assoc]
      obtain ⟨behind, near⟩ := finish_names inferred (proper _ List.mem_cons_self)
        (Nat.dvd_add (isFirst.trans aligned) (dvd_roundUp off _)) names
      have isFinish : base + finish (entryItems [(roundUp off (item false ty).align, ty)]) off =
          base + roundUp off (item false ty).align + (sizetype false ty).size := by
        rw [add_assoc]
        rfl
      rw [isFinish, Patterns.names]
      exact ⟨behind, near.trans (roundUp_le_of_dvd isFirst (item false ty).positive positive)⟩
  | .cons part next, (offset, ty) :: entries, inferred, proper, off, start, base, al, isPlaced,
      divides, positive, aligned, same => by
      obtain ⟨-, areOthers⟩ := List.forall_mem_cons.mp proper
      obtain ⟨isOffset, laterPlaced⟩ := List.cons.inj isPlaced
      have laterDivides : alignment (entryItems entries) ∣ al :=
        (dvd_of_le (alignment_isPower _) (alignment_isPower _) (le_max_right _ _)).trans divides
      rw [partOffsets, Patterns.names, items_append, List.map_append, offsets_append] at same
      have lengths : (((nameOffsets false part ty).map (offset + ·)).map (base + ·)).length =
          (offsets (items false part.names) start).length := by
        rw [List.length_map, List.length_map, offsets_length, nameOffsets_length inferred.1, items,
          List.length_map]
      rw [Patterns.names, items_append, finish_append]
      exact finish_parts inferred.2 areOthers laterPlaced laterDivides positive aligned
        (List.append_inj same lengths).2

end

/-- A type is as large as the block of its names, if it has them in line. -/
theorem size_of_inLine {parts : Patterns} {t : Ty} (proper : t.Proper)
    (inferred : declasinfer false (.otuple parts) t) (inLine : InLine false (.otuple parts) t) :
    (sizetype false t).size = blockSize false parts.names := by
  have inLine' : (nameOffsets false (.otuple parts) t).map (0 + ·) =
      offsets (items false (Pattern.otuple parts).names) 0 := by
    simp only [zero_add, List.map_id']
    exact inLine
  obtain ⟨behind, near⟩ := finish_names inferred proper (Nat.dvd_zero _) inLine'
  rw [zero_add] at behind near
  have whole : (sizetype false t).align ∣ (sizetype false t).size := by
    match t with
    | .record .ttuple ids =>
        rw [record_extent]
        exact dvd_roundUp _ _
    | .record .tadt ids =>
        rw [record_extent]
        exact dvd_roundUp _ _
  have positive := (item false t).positive
  have isAlign := align_names inferred proper
  unfold blockSize
  rw [Pattern.names] at behind near isAlign
  rw [← isAlign]
  exact le_antisymm near (roundUp_le positive behind whole)

end Sizes

section Moves

variable {z : Bool}

/-- A move of some bytes to a block stays in the frame, and reaches no other variable with a place
of its own and no argument. -/
structure Takes (z : Bool) (f : Function) (block : Block) (base size : ℕ) : Prop where
  inside : base + size ≤ (f.frame z).offset
  locals : ∀ d ∈ f.loc z, linkOf d = none → d ∉ block.decls →
    (f.frame z).placed d.ref + (sizetype z d.ty).size ≤ base ∨
      base + size ≤ (f.frame z).placed d.ref
  args : ∀ d ∈ f.args, (f.frame z).placed d.ref + (sizetype z d.ty).size ≤ base

/-- The names of one `:=` are together in the frame. -/
theorem block_placed {tequal : Ty → Ty → Bool} {args : List Decl} {ops : List Op}
    {temps : List Block} (declared : Declared args ops temps) {block : Block}
    (several : block.rest ≠ []) :
    let f : Function := ⟨args, run z tequal ops begin, temps⟩
    let base := (f.frame z).placed block.head.ref
    block ∈ vars f.locals ++ f.temps →
      alignment (items z block.decls) ∣ base ∧
      block.decls.map (fun d => (f.frame z).placed d.ref) =
        (offsets (items z block.decls) 0).map (base + ·) ∧
      Takes z f block base (blockSize z block.decls) := by
  intro f place isBlock
  have checked : f.Checked z := checked_of_run declared
  obtain ⟨before, behind, isSorted⟩ :=
    List.append_of_mem ((declsort_perm (z := z) _).mem_iff.mpr isBlock)
  have isLoc : f.loc z =
      before.flatMap Block.decls ++ (block.decls ++ behind.flatMap Block.decls) := by
    unfold Function.loc
    rw [isSorted, List.flatMap_append, List.flatMap_cons]
  have starts := starts_blocks behind
  have startsBlock : Starts (block.decls ++ behind.flatMap Block.decls) := by
    rw [← List.flatMap_cons]
    exact starts_blocks (block :: behind)
  have stored := loc_stored checked
  have refs := (List.nodup_append.mp (loc_refs checked)).2.1
  have targets := loc_targets checked
  rw [isLoc] at stored targets
  rw [isLoc, List.map_append, List.map_append] at refs
  obtain ⟨storedBefore, storedRest⟩ := List.forall_mem_append.mp stored
  obtain ⟨-, storedBehind⟩ := List.forall_mem_append.mp storedRest
  obtain ⟨targetsBefore, targetsRest⟩ := targetsFirst_append targets
  obtain ⟨refsBefore, refsRest, cross⟩ := List.nodup_append.mp refs
  obtain ⟨refsBlock, refsBehind, apart⟩ := List.nodup_append.mp refsRest
  obtain ⟨s, isStart⟩ : ∃ s, s = Offsets.mk (f.declared z).offset 1 (f.declared z).placed :=
    ⟨_, rfl⟩
  have positive : 0 < s.algn := isStart ▸ Nat.one_pos
  obtain ⟨-, growsBefore, laidBefore⟩ := idoffsetsLoop_spec z (before.flatMap Block.decls) positive
    storedBefore refsBefore targetsBefore
  have isAlgn := @algn_positive z (before.flatMap Block.decls) s positive
  obtain ⟨first, isFirst⟩ : ∃ first, idoffsetsLoop z (before.flatMap Block.decls) s = first :=
    ⟨_, rfl⟩
  rw [isFirst] at laidBefore growsBefore isAlgn
  obtain ⟨base, isBehind, aligned, isOffset, isPlaced⟩ :=
    @block_loop z block several refsBlock first
  obtain ⟨unchanged, -, -⟩ := idoffsetsLoop_spec z block.decls isAlgn
    (fun d member => stored d (List.mem_append_right _ (List.mem_append_left _ member)))
    refsBlock (targetsFirst_append targetsRest).1
  have isAlgn' := @algn_positive z block.decls first isAlgn
  obtain ⟨second, isSecond⟩ : ∃ second, idoffsetsLoop z block.decls first = second := ⟨_, rfl⟩
  rw [isSecond] at isOffset isPlaced unchanged isAlgn'
  obtain ⟨outside, grows, laidBehind⟩ := idoffsetsLoop_spec z (behind.flatMap Block.decls)
    isAlgn' storedBehind refsBehind (targetsFirst_append targetsRest).2
  obtain ⟨third, isThird⟩ : ∃ third,
      idoffsetsLoop z (behind.flatMap Block.decls) second = third := ⟨_, rfl⟩
  rw [isThird] at outside grows laidBehind
  have isLoop : idoffsetsLoop z (f.loc z) s = third := by
    rw [isLoc, idoffsetsLoop_append _ startsBlock, idoffsetsLoop_append _ starts, isFirst,
      isSecond, isThird]
  have isFrame : (f.frame z).placed = third.placed := by
    rw [← isLoop, isStart]
    rfl
  have inFrame : third.offset ≤ (f.frame z).offset := by
    have rounds : (f.frame z).offset = roundUp third.offset maxAlign := by
      rw [← isLoop, isStart]
      exact align_eq (by decide) _
    exact rounds ▸ le_roundUp (by decide) _
  have placed : block.decls.map (fun d => (f.frame z).placed d.ref) =
      (offsets (items z block.decls) 0).map (base + ·) := by
    calc block.decls.map (fun d => (f.frame z).placed d.ref)
      _ = block.decls.map fun d => second.placed d.ref := by
        rw [isFrame]
        apply List.map_congr_left
        intro d member
        apply outside
        exact fun isLater => apart d.ref (List.mem_map_of_mem member) d.ref isLater rfl
      _ = (offsets (items z block.decls) 0).map (base + ·) := isPlaced
  have isBase : place = base := by
    have isHead : place = base + roundUp 0 (item z block.head.ty).align :=
      Option.some.inj (congrArg List.head? placed)
    rw [isHead, roundUp_of_dvd (item z block.head.ty).positive (dvd_zero _), add_zero]
  rw [isBase]
  refine ⟨aligned, placed, ?_, ?_, ?_⟩
  · exact isOffset ▸ grows.trans inFrame
  · intro d member own notBlock
    rw [isFrame]
    rw [isLoc] at member
    rcases List.mem_append.mp member with isBefore | isRest
    · have isCross := fun other isOther => cross d.ref (List.mem_map_of_mem isBefore) other isOther
      have notBehind : d.ref ∉ (behind.flatMap Block.decls).map Decl.ref := fun isLater =>
        isCross d.ref (List.mem_append_right _ isLater) rfl
      have notHere : d.ref ∉ block.decls.map Decl.ref := fun isHere =>
        isCross d.ref (List.mem_append_left _ isHere) rfl
      rw [outside d.ref notBehind, unchanged d.ref notHere]
      exact Or.inl ((laidBefore.own d isBefore own).2.2.trans isBehind)
    · rcases List.mem_append.mp isRest with isHere | isBehind
      · exact absurd isHere notBlock
      · exact Or.inr (isOffset ▸ (laidBehind.own d isBehind own).1)
  · intro d isArg
    have own : linkOf d = none := by rw [linkOf, (checked.args d isArg).2, ite_self]
    have inArgs := ((frame_laid checked).1.own d isArg own).2.2
    have atStart : s.offset = (f.declared z).offset := by rw [isStart]
    omega

/-- `(a, b) := t`, where `t: (byte, int)`. -/
def pair : Block where
  head := ⟨0, .dlocal, .plain .tbyte, 2, none, 1, "a"⟩
  rest := [⟨1, .dlocal, .plain .tint, 0, none, 1, "b"⟩]
  isHead := rfl
  isByte := show 2 < 256 by decide
  followers := by simp
  unlinked := by simp
  locals := by simp

def pairPattern : Patterns :=
  .cons (.oname ⟨0, .dlocal, .plain .tbyte, 2, none, 1, "a"⟩)
    (.one (.oname ⟨1, .dlocal, .plain .tint, 0, none, 1, "b"⟩))

def byteInt : Ty :=
  .record .ttuple (.cons .dfield false (.plain .tbyte) (.cons .dfield false (.plain .tint) .nil))

def pairFunction : Function :=
  ⟨[], run false (fun _ _ => true) [.declare pair false] begin, []⟩

/-- In `(a, (b, c)) := t`, where `t: (int, (int, big))`, the names are not in line, and `t` is
larger than their block. -/
example :
    let b : Decl := ⟨1, .dlocal, .plain .tint, 0, none, 1, "b"⟩
    let c : Decl := ⟨2, .dlocal, .plain .tbig, 0, none, 1, "c"⟩
    let p : Pattern := .otuple (.cons (.oname ⟨0, .dlocal, .plain .tint, 3, none, 1, "a"⟩)
      (.one (.otuple (.cons (.oname b) (.one (.oname c))))))
    let intBig : Ty := .record .ttuple
      (.cons .dfield false (.plain .tint) (.cons .dfield false (.plain .tbig) .nil))
    let t : Ty := .record .ttuple
      (.cons .dfield false (.plain .tint) (.cons .dfield false intBig .nil))
    ¬ InLine false p t ∧ (sizetype false t).size = 24 ∧ blockSize false p.names = 16 := by
  decide

end Moves

end Disvm.FrameLayout
