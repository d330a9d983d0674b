import Disvm.LoadedData
import Disvm.FrameLayout

/-!
# Globals have their initial values

The initial values of globals are of their types, which are placed one behind the other.  So what
the compiler writes for them is read as their values, each at the offset of its global.
-/

namespace Disvm.DataWriter

open ModuleReader ModuleWriter RecordLayout TypeLayout SharedLocals FrameLayout DataSection

section Described

variable (setting : Setting) (z : Bool)

/-- The descriptor of the elements of an array, which is less than 2 GB. -/
def ArrayDescribed (tof : Ty) (desc : Word) (left : BitVec 64) : Prop :=
  ∃ type, setting.typeAt desc = some type ∧ type.sizeInBytes.toInt = (sizetype z tof).size ∧
    (asInt left).toInt * (sizetype z tof).size < 2 ^ 31

mutual

def Node.Described : Node → Prop
  | .ttuple _ left => left.Described
  | .tarray tof desc left => ArrayDescribed setting z tof desc left
  | .tainit tof desc left labs wild =>
      ArrayDescribed setting z tof desc left ∧ labs.Described ∧ wild.Described
  | _ => True

def Nodes.Described : Nodes → Prop
  | .nil => True
  | .cons left right => left.Described ∧ right.Described

def Labels.Described : Labels → Prop
  | .nil => True
  | .cons _ _ elem labs => elem.Described ∧ labs.Described

def Wild.Described : Wild → Prop
  | .nil => True
  | .elem elem => elem.Described

end

end Described

section Laid

variable {setting : Setting} {z : Bool} {depth : ℕ}

theorem Laid.mono {pieces : List Piece} {first last before behind : ℤ}
    (laid : Laid setting pieces first last depth) (isBefore : before ≤ first)
    (isBehind : last ≤ behind) : Laid setting pieces before behind depth := by
  induction pieces generalizing first before with
  | nil =>
      have isLast : first ≤ last := laid
      show before ≤ behind
      omega
  | cons piece pieces ih =>
      obtain ⟨isFirst, isLaid, rest⟩ := laid
      exact ⟨isBefore.trans isFirst, isLaid, ih rest le_rfl⟩

theorem Laid.append {pieces others : List Piece} {first middle last : ℤ}
    (one : Laid setting pieces first middle depth) (two : Laid setting others middle last depth) :
    Laid setting (pieces ++ others) first last depth := by
  induction pieces generalizing first with
  | nil => exact two.mono one le_rfl
  | cons piece pieces ih =>
      obtain ⟨isFirst, isLaid, rest⟩ := one
      exact ⟨isFirst, isLaid, ih rest⟩

theorem laid_value {offset first last : ℤ} {v : Value} (behind : first ≤ offset)
    (before : offset + v.kind.size ≤ last) : Laid setting [.value offset v] first last depth :=
  ⟨behind, trivial, before⟩

theorem laid_text {offset first last : ℤ} {name : List UInt8} (behind : first ≤ offset)
    (before : offset + pointerSize ≤ last) : Laid setting [.text offset name] first last depth :=
  ⟨behind, trivial, before⟩

theorem laid_case (labs : List Label) (offset : ℤ) :
    Laid setting (casePieces labs offset) offset (offset + labs.length * (3 * iby2wd)) depth := by
  induction labs generalizing offset with
  | nil => exact (by simp : offset ≤ offset + (([] : List Label).length : ℤ) * (3 * iby2wd))
  | cons lab labs ih =>
      have later := ih (offset + iby2wd + iby2wd + iby2wd)
      have behind : offset + iby2wd + iby2wd + iby2wd + labs.length * (3 * iby2wd) =
          offset + (lab :: labs).length * (3 * iby2wd) := by
        rw [List.length_cons]
        push_cast
        ring
      rw [behind] at later
      exact ⟨le_rfl, trivial, le_rfl, trivial, le_rfl, trivial, later⟩

theorem laid_casel (labs : List Label) (offset : ℤ) :
    Laid setting (caselPieces labs offset) offset (offset + labs.length * (6 * iby2wd)) depth := by
  induction labs generalizing offset with
  | nil => exact (by simp : offset ≤ offset + (([] : List Label).length : ℤ) * (6 * iby2wd))
  | cons lab labs ih =>
      have later := ih (offset + iby2lg + iby2lg + 2 * iby2wd)
      have behind : offset + iby2lg + iby2lg + 2 * iby2wd + labs.length * (6 * iby2wd) =
          offset + (lab :: labs).length * (6 * iby2wd) := by
        unfold iby2lg iby2wd
        rw [List.length_cons]
        push_cast
        ring
      rw [behind] at later
      have gap : offset + iby2lg + iby2lg + (4 : ℕ) ≤ offset + iby2lg + iby2lg + 2 * iby2wd := by
        unfold iby2wd
        omega
      exact ⟨le_rfl, trivial, le_rfl, trivial, le_rfl, trivial, later.mono gap le_rfl⟩

theorem laid_casec (labs : List StringLabel) (offset : ℤ) :
    Laid setting (casecPieces labs offset) offset (offset + labs.length * (3 * iby2wd)) depth := by
  induction labs generalizing offset with
  | nil => exact (by simp : offset ≤ offset + (([] : List StringLabel).length : ℤ) * (3 * iby2wd))
  | cons lab labs ih =>
      have later := ih (offset + iby2wd + iby2wd + iby2wd)
      have behind : offset + iby2wd + iby2wd + iby2wd + labs.length * (3 * iby2wd) =
          offset + (lab :: labs).length * (3 * iby2wd) := by
        rw [List.length_cons]
        push_cast
        ring
      rw [behind] at later
      have rest : Laid setting (.value (offset + iby2wd + iby2wd) (.word lab.pc) ::
          casecPieces labs (offset + iby2wd + iby2wd + iby2wd)) (offset + iby2wd + iby2wd)
          (offset + (lab :: labs).length * (3 * iby2wd)) depth := ⟨le_rfl, trivial, later⟩
      refine ⟨le_rfl, trivial, ?_⟩
      cases lab.stop with
      | none => exact rest.mono (by simp [iby2wd, Piece.size, Piece.offset, pointerSize]) le_rfl
      | some stop => exact ⟨le_rfl, trivial, rest⟩

theorem laid_goto (labs : List Word) (offset : ℤ) :
    Laid setting (gotoPieces labs offset) offset (offset + labs.length * iby2wd) depth := by
  induction labs generalizing offset with
  | nil => exact (by simp : offset ≤ offset + (([] : List Word).length : ℤ) * iby2wd)
  | cons pc labs ih =>
      have later := ih (offset + iby2wd)
      have behind : offset + iby2wd + labs.length * iby2wd =
          offset + (pc :: labs).length * iby2wd := by
        rw [List.length_cons]
        push_cast
        ring
      rw [behind] at later
      exact ⟨le_rfl, trivial, later⟩

/-- A table of labels, after their number and before the wildcard. -/
theorem laid_table {count : Word} {pieces : List Piece} {iwild : Option Word}
    {offset first last : ℤ} (laid : Laid setting pieces first last depth)
    (behind : offset + iby2wd ≤ first) :
    Laid setting (.value offset (.word count) :: (pieces ++ [iwildPiece last iwild])) offset
      (last + iby2wd) depth := by
  have wild : Laid setting [iwildPiece last iwild] last (last + iby2wd) depth :=
    laid_value le_rfl le_rfl
  exact ⟨le_rfl, trivial, (laid.append wild).mono behind le_rfl⟩

/-- Elements at their indices. -/
theorem laid_span {pieces : ℤ → List Piece} {esz : ℕ}
    (laid : ∀ index, Laid setting (pieces index) (esz * index) (esz * index + esz) depth)
    (count : ℕ) (first : ℤ) :
    Laid setting (span pieces count first) (esz * first) (esz * (first + count)) depth := by
  induction count generalizing first with
  | zero =>
      show (esz : ℤ) * first ≤ esz * (first + (0 : ℕ))
      simp
  | succ count ih =>
      have later := ih (first + 1)
      have next : (esz : ℤ) * first + esz = esz * (first + 1) := by ring
      have behind : first + 1 + count = first + (count + 1 : ℕ) := by
        push_cast
        ring
      rw [behind] at later
      have here := laid first
      rw [next] at here
      exact here.append later

theorem arraySize_eq {tof : Ty} {desc : Word} {left : BitVec 64} (isNat : 0 ≤ (asInt left).toInt)
    (described : ArrayDescribed setting z tof desc left) :
    (arraySize setting desc (asInt left) : ℤ) =
        (sizetype z tof).size * (0 + ((asInt left).toInt.toNat : ℕ)) ∧
      arraySize setting desc (asInt left) < 2 ^ 31 := by
  obtain ⟨type, isType, isSize, small⟩ := described
  have isArray : arraySize setting desc (asInt left) =
      asSize ((asInt left).toInt * (sizetype z tof).size) := by
    rw [arraySize, isType, ← isSize]
  have positive : 0 ≤ (asInt left).toInt * (sizetype z tof).size :=
    mul_nonneg isNat (Int.natCast_nonneg _)
  have isNumber : ((asInt left).toInt.toNat : ℤ) = (asInt left).toInt := Int.toNat_of_nonneg isNat
  rw [isArray, isNumber, zero_add, mul_comm ((sizetype z tof).size : ℤ)]
  unfold asSize
  constructor <;> omega

mutual

/-- What an initial value says is inside of its type. -/
theorem Node.laid : ∀ (n : Node) {t : Ty} {depth : ℕ} (offset : ℤ), n.Typed t →
    n.Described setting z → initable n depth = true →
    Laid setting (n.pieces z offset) offset (offset + (sizetype z t).size) depth
  | .tbyte val, t, depth, offset, typed, _, _ => by
      cases typed
      exact laid_value le_rfl le_rfl
  | .tint val, t, depth, offset, typed, _, _ => by
      rcases typed with rfl | rfl <;> exact laid_value le_rfl le_rfl
  | .tbig val, t, depth, offset, typed, _, _ => by
      cases typed
      exact laid_value le_rfl le_rfl
  | .tstring name, t, depth, offset, typed, _, _ => by
      cases typed
      exact laid_text le_rfl le_rfl
  | .treal rval, t, depth, offset, typed, _, _ => by
      cases typed
      exact laid_value le_rfl le_rfl
  | .ttuple ids left, t, depth, offset, typed, described, checked => by
      obtain ⟨⟨kind, rfl⟩, areTyped⟩ := typed
      have laid := Nodes.laid left offset 0 1 le_rfl areTyped described checked
      have inside := sizerecord_size z (sizeids_isPower z ids 0 1 ⟨0, rfl⟩)
      apply laid.mono (by simp)
      rw [sizetype]
      omega
  | .tany, t, depth, offset, typed, _, _ => by
      show offset ≤ _
      omega
  | .tcase labs iwild, t, depth, offset, typed, _, _ => by
      cases typed
      have laid := @laid_table setting depth (BitVec.ofNat 32 labs.length) _ iwild offset _ _
        (laid_case labs (offset + iby2wd)) le_rfl
      apply laid.mono le_rfl
      rw [sizetype]
      unfold iby2wd
      push_cast
      omega
  | .tcasel labs iwild, t, depth, offset, typed, _, _ => by
      cases typed
      have laid := @laid_table setting depth (BitVec.ofNat 32 labs.length) _ iwild offset _ _
        (laid_casel labs (offset + 2 * iby2wd)) (by unfold iby2wd; omega)
      apply laid.mono le_rfl
      rw [sizetype]
      unfold iby2wd
      push_cast
      omega
  | .tcasec labs iwild, t, depth, offset, typed, _, _ => by
      cases typed
      have laid := @laid_table setting depth (BitVec.ofNat 32 labs.length) _ iwild offset _ _
        (laid_casec labs (offset + iby2wd)) le_rfl
      apply laid.mono le_rfl
      rw [sizetype]
      unfold iby2wd
      push_cast
      omega
  | .tgoto labs iwild, t, depth, offset, typed, _, _ => by
      cases typed
      have laid := @laid_goto setting depth (labs ++ iwild.toList) (offset + iby2wd)
      refine ⟨le_rfl, trivial, laid.mono le_rfl ?_⟩
      rw [sizetype, List.length_append]
      unfold iby2wd
      cases iwild <;> simp <;> omega
  | .tarray tof desc left, t, depth, offset, typed, described, checked => by
      obtain ⟨rfl, isNat⟩ := typed
      obtain ⟨type, isType, -⟩ := described
      refine ⟨le_rfl, ?_, le_rfl⟩
      show (setting.typeAt desc).isSome = true
      rw [isType]
      rfl
  | .tainit tof desc left labs wild, t, depth, offset, typed, described, checked => by
      obtain ⟨rfl, ascending, areElems, isElem⟩ := typed
      obtain ⟨isArray, elemsDescribed, elemDescribed⟩ := described
      rw [initable, Bool.and_eq_true_iff, Bool.and_eq_true_iff] at checked
      obtain ⟨⟨room, elemsChecked⟩, elemChecked⟩ := checked
      obtain ⟨isSize, small⟩ := arraySize_eq ascending.le isArray
      have areLaid := laid_span (fun index => Labels.laid labs index areElems elemsDescribed
        elemsChecked fun index => Wild.laid wild (_ * index) isElem elemDescribed elemChecked)
        (asInt left).toInt.toNat 0
      rw [mul_zero, ← isSize] at areLaid
      obtain ⟨type, isType, -⟩ := isArray
      refine ⟨le_rfl, ⟨?_, of_decide_eq_true room, small, areLaid⟩, le_rfl⟩
      rw [isType]
      rfl

theorem Nodes.laid : ∀ (left : Nodes) {ids : Ids} {depth : ℕ} (offset : ℤ) (off al : ℕ),
    1 ≤ al → left.Typed ids → left.Described setting z → initables left depth = true →
    Laid setting (left.pieces z (sizeids z ids off al).offsets offset) (offset + off)
      (offset + (sizeids z ids off al).off) depth
  | .nil, ids, depth, offset, off, al, positive, _, _, _ => by
      have empty : Nodes.nil.pieces z (sizeids z ids off al).offsets offset = [] := by
        simp [Nodes.pieces]
      rw [empty]
      have behind : off ≤ finish (ids.items z) off := le_finish _ _
      rw [← (sizeids_eq z ids off al positive).1] at behind
      show offset + off ≤ _
      omega
  | .cons left right, .nil, _, _, _, _, _, typed, _, _ => typed.elim
  | .cons left right, .cons store linked ty next, depth, offset, off, al, positive, typed,
      described, checked => by
      obtain ⟨rfl, isLeft, isRight⟩ := typed
      rw [initables, Bool.and_eq_true_iff] at checked
      rw [sizeids_cons z rfl]
      dsimp only
      rw [Nodes.pieces]
      have here := Node.laid left (offset + roundUp off (item z ty).align : ℤ) isLeft described.1
        checked.1
      have later := Nodes.laid right offset (roundUp off (item z ty).align + (item z ty).size)
        (max (item z ty).align al) (positive.trans (le_max_right _ _)) isRight described.2 checked.2
      have behind := le_roundUp (item z ty).positive off
      push_cast at later
      rw [← add_assoc] at later
      exact (here.append later).mono (by omega) le_rfl

theorem Wild.laid : ∀ (wild : Wild) {t : Ty} {depth : ℕ} (offset : ℤ), wild.Typed t →
    wild.Described setting z → initwild wild depth = true →
    Laid setting (wild.pieces z offset) offset (offset + (sizetype z t).size) depth
  | .nil, _, _, offset, _, _, _ => by
      show offset ≤ _
      omega
  | .elem elem, _, _, offset, typed, described, checked =>
      Node.laid elem offset typed described checked

theorem Labels.laid {wild : ℤ → List Piece} : ∀ (labs : Labels) {t : Ty} {depth : ℕ} (index : ℤ),
    labs.Typed t → labs.Described setting z → initlabels labs depth = true →
    (∀ index : ℤ, Laid setting (wild index) ((sizetype z t).size * index)
      ((sizetype z t).size * index + (sizetype z t).size) depth) →
    Laid setting (labs.pieces z (sizetype z t).size wild index) ((sizetype z t).size * index)
      ((sizetype z t).size * index + (sizetype z t).size) depth
  | .nil, _, _, index, _, _, _, isWild => isWild index
  | .cons start stop elem labs, _, _, index, typed, described, checked, isWild => by
      rw [initlabels, Bool.and_eq_true_iff] at checked
      rw [Labels.pieces]
      split_ifs
      · exact Node.laid elem _ typed.1 described.1 checked.1
      · exact Labels.laid labs index typed.2 described.2 checked.2 isWild

end

/-- A piece is where the pieces are. -/
theorem Laid.mem {pieces : List Piece} {first last : ℤ}
    (laid : Laid setting pieces first last depth) {piece : Piece} (member : piece ∈ pieces) :
    first ≤ piece.offset ∧ piece.offset + piece.size ≤ last := by
  induction pieces generalizing first with
  | nil => cases member
  | cons head pieces ih =>
      obtain ⟨behind, isLaid, rest⟩ := laid
      rcases List.mem_cons.mp member with rfl | later
      · exact ⟨behind, rest.le⟩
      · obtain ⟨isBehind, isBefore⟩ := ih rest later
        exact ⟨by omega, isBefore⟩

end Laid

section Globals

variable {setting : Setting} {z : Bool}

/-- What the initial value of a global says, if it has one. -/
def initialPieces (z : Bool) (offset : ℕ) (init : Option Node) : List Piece :=
  init.toList.flatMap fun n => n.pieces z offset

/-- The pieces of globals at their offsets. -/
def globalPieces (z : Bool) (placed : ℕ → ℕ) (globals : List (Decl × Option Node)) : List Piece :=
  globals.flatMap fun d => initialPieces z (placed d.1.ref) d.2

/-- Globals with the offsets that they are given. -/
def offsetGlobals (placed : ℕ → ℕ) (globals : List (Decl × Option Node)) : List Global :=
  globals.map fun d => ⟨d.1.store, placed d.1.ref, d.2⟩

/-- Initial values of globals are checked and have the types of their globals. -/
structure Checked (setting : Setting) (z : Bool) (globals : List (Decl × Option Node)) : Prop where
  refs : (globals.map fun d => d.1.ref).Nodup
  stores : ∀ d ∈ globals, d.1.store = .dglobal
  typed : ∀ d ∈ globals, ∀ n ∈ d.2, n.Typed d.1.ty
  described : ∀ d ∈ globals, ∀ n ∈ d.2, n.Described setting z
  initable : ∀ d ∈ globals, ∀ n ∈ d.2, initable n 0 = true

theorem disglobals_eq {globals : List (Decl × Option Node)}
    (stores : ∀ d ∈ globals, d.1.store = .dglobal)
    (typed : ∀ d ∈ globals, ∀ n ∈ d.2, n.Typed d.1.ty) (placed : ℕ → ℕ) (s : Output) :
    disglobals z (offsetGlobals placed globals) s = emits (globalPieces z placed globals) s := by
  induction globals generalizing s with
  | nil => rfl
  | cons d globals ih =>
      obtain ⟨isGlobal, othersStored⟩ := List.forall_mem_cons.mp stores
      obtain ⟨isTyped, othersTyped⟩ := List.forall_mem_cons.mp typed
      have later := fun s => ih othersStored othersTyped s
      unfold globalPieces offsetGlobals at later ⊢
      rw [List.map_cons, List.flatMap_cons, emits_append, disglobals]
      simp only [later]
      obtain ⟨decl, init⟩ := d
      cases init with
      | none => rfl
      | some n =>
          dsimp only at isGlobal ⊢
          rw [if_pos isGlobal, disdatum_eq n (isTyped n rfl), initialPieces, Option.toList_some,
            List.flatMap_singleton]

/-- Initial values of globals that are placed one behind the other. -/
theorem laid_globals {placed : ℕ → ℕ} {globals : List (Decl × Option Node)}
    (checked : Checked setting z globals) {first last : ℤ} (le : first ≤ last)
    (order : globals.Pairwise fun d d' =>
      placed d.1.ref + (sizetype z d.1.ty).size ≤ placed d'.1.ref)
    (bounds : ∀ d ∈ globals, first ≤ placed d.1.ref ∧
      ((placed d.1.ref + (sizetype z d.1.ty).size : ℕ) : ℤ) ≤ last) :
    Laid setting (globalPieces z placed globals) first last 0 := by
  induction globals generalizing first with
  | nil => exact le
  | cons d globals ih =>
      obtain ⟨here, others⟩ := List.pairwise_cons.mp order
      obtain ⟨inside, othersInside⟩ := List.forall_mem_cons.mp bounds
      have rest : Checked setting z globals := by
        refine ⟨(List.nodup_cons.mp checked.refs).2, ?_, ?_, ?_, ?_⟩
        · exact fun d member => checked.stores d (List.mem_cons_of_mem _ member)
        · exact fun d member => checked.typed d (List.mem_cons_of_mem _ member)
        · exact fun d member => checked.described d (List.mem_cons_of_mem _ member)
        · exact fun d member => checked.initable d (List.mem_cons_of_mem _ member)
      have later : Laid setting (globalPieces z placed globals)
          (placed d.1.ref + (sizetype z d.1.ty).size : ℕ) last 0 := by
        apply ih rest inside.2 others
        intro e member
        have isBehind := here e member
        exact ⟨by omega, (othersInside e member).2⟩
      have split : globalPieces z placed (d :: globals) =
          initialPieces z (placed d.1.ref) d.2 ++ globalPieces z placed globals :=
        List.flatMap_cons
      rw [split, initialPieces]
      cases isInit : d.2 with
      | none => exact later.mono (by omega) le_rfl
      | some n =>
          rw [Option.toList_some, List.flatMap_singleton]
          have isLaid := n.laid (placed d.1.ref) (checked.typed d List.mem_cons_self n isInit)
            (checked.described d List.mem_cons_self n isInit)
            (checked.initable d List.mem_cons_self n isInit)
          rw [Nat.cast_add] at later
          exact (isLaid.append later).mono inside.1 le_rfl

theorem shown_iff {memory : Memory} {pieces : List Piece} {old : ℕ} {base : DataSection.Address} :
    Shown setting memory pieces old base ↔
      ∀ piece ∈ pieces, piece.Shown setting memory old base := by
  induction pieces with
  | nil => simp [Shown]
  | cons piece pieces ih => rw [Shown, ih, List.forall_mem_cons]

/-- The offsets of globals and the size of the module data. -/
def moduleOffsets (z : Bool) (globals : List (Decl × Option Node)) : Offsets :=
  idoffsets z (globals.map Prod.fst) 0 iby2wd fun _ => 0

/-- Globals are placed one behind the other. -/
theorem globals_placed {globals : List (Decl × Option Node)} (checked : Checked setting z globals) :
    let s := moduleOffsets z globals
    (globals.Pairwise fun d d' =>
      s.placed d.1.ref + (sizetype z d.1.ty).size ≤ s.placed d'.1.ref) ∧
      ∀ d ∈ globals, s.placed d.1.ref + (sizetype z d.1.ty).size ≤ s.offset := by
  intro s
  have unlinked : ∀ d ∈ globals.map Prod.fst, linkOf d = none := by
    intro d member
    obtain ⟨global, isGlobal, rfl⟩ := List.mem_map.mp member
    rw [linkOf, checked.stores global isGlobal]
    rfl
  have stored : ∀ d ∈ globals.map Prod.fst, storespace d.store = true := by
    intro d member
    obtain ⟨global, isGlobal, rfl⟩ := List.mem_map.mp member
    rw [checked.stores global isGlobal]
    rfl
  have refs : ((globals.map Prod.fst).map Decl.ref).Nodup := by
    rw [List.map_map]
    exact checked.refs
  obtain ⟨-, -, -, laid⟩ := @idoffsets_spec z (globals.map Prod.fst) 0 iby2wd (by decide)
    (fun _ => 0) stored refs (targetsFirst_of_unlinked unlinked)
  have all : ((globals.map Prod.fst).filter fun d => (linkOf d).isNone) =
      globals.map Prod.fst := by
    apply List.filter_eq_self.mpr
    intro d member
    rw [unlinked d member]
    rfl
  have order := laid.order
  rw [all, List.pairwise_map] at order
  refine ⟨order, fun d member => ?_⟩
  have isDecl : d.1 ∈ globals.map Prod.fst := List.mem_map_of_mem member
  exact (laid.own d.1 isDecl (unlinked d.1 isDecl)).2.2

/-- The module data before anything is read. -/
def blank (setting : Setting) : Memory :=
  ⟨List.replicate setting.dataSize.toNat (.byte 0), [], []⟩

/-- The block of the module data is made, unless there is none. -/
def Allocated (setting : Setting) : Prop :=
  setting.dataSize = 0 ∨ setting.allocates (allocHeaderSize + setting.dataSize.toNat) = true

/-- The descriptor of the module data. -/
def ModuleDescribed (setting : Setting) : Prop :=
  ∃ type, setting.typeAt 0 = some type ∧ type.sizeInBytes = setting.dataSize

theorem start_eq (described : ModuleDescribed setting) (isNat : 0 ≤ setting.dataSize.toInt)
    (reader : Stream) :
    (Allocated setting →
        start setting reader = .reading ⟨reader, ⟨.moduleData, 0⟩, [], blank setting⟩) ∧
      (¬ Allocated setting → start setting reader = .thrown noMemory) := by
  obtain ⟨type, isType, isSize⟩ := described
  unfold start Allocated
  by_cases empty : setting.dataSize = 0
  · have none : blank setting = noMemory := by
      rw [blank, empty]
      rfl
    rw [if_pos empty, none]
    exact ⟨fun _ => rfl, fun refused => absurd (Or.inl empty) refused⟩
  · have positive : ¬ setting.dataSize.toInt ≤ 0 := by
      intro le
      apply empty
      apply BitVec.eq_of_toInt_eq
      exact le_antisymm le isNat
    rw [if_neg empty, isType]
    dsimp only
    rw [if_neg (not_not.mpr isSize), if_neg positive]
    simp only [empty, false_or]
    cases setting.allocates (allocHeaderSize + setting.dataSize.toNat) with
    | false => exact ⟨fun made => absurd made Bool.false_ne_true, fun _ => rfl⟩
    | true => exact ⟨fun _ => rfl, fun refused => absurd rfl refused⟩

/-- A global has its initial value, and zeros where this says nothing. -/
structure Initialized (setting : Setting) (z : Bool) (memory : Memory) (offset : ℕ)
    (d : Decl × Option Node) : Prop where
  shown : Shown setting memory (initialPieces z offset d.2) 0 ⟨.moduleData, 0⟩
  zero : ZeroElsewhere memory .moduleData offset (offset + (sizetype z d.1.ty).size)
    (initialPieces z offset d.2)

/-- What initial values say is inside of the module data. -/
theorem data_laid {globals : List (Decl × Option Node)} (checked : Checked setting z globals)
    (isSize : setting.dataSize.toInt = (moduleOffsets z globals).offset) :
    setting.dataSize.toNat < 2 ^ 31 ∧ setting.dataSize.toNat = (moduleOffsets z globals).offset ∧
      Laid setting (globalPieces z (moduleOffsets z globals).placed globals) 0
        setting.dataSize.toNat 0 := by
  obtain ⟨order, inside⟩ := globals_placed checked
  have small : setting.dataSize.toNat < 2 ^ 31 ∧
      setting.dataSize.toNat = (moduleOffsets z globals).offset := by
    have signed := BitVec.toInt_eq_toNat_cond setting.dataSize
    split_ifs at signed <;> omega
  refine ⟨small.1, small.2, ?_⟩
  apply laid_globals checked (Int.natCast_nonneg _) order
  intro d member
  have isInside := inside d member
  omega

theorem blank_holds (setting : Setting) :
    (blank setting).Holds ⟨.moduleData, 0⟩ setting.dataSize.toNat := by
  refine ⟨le_rfl, ?_⟩
  simp [blank, Memory.cells]

/-- What a written data section leads the reader to. -/
theorem disvar_spec {globals : List (Decl × Option Node)} (checked : Checked setting z globals)
    (isSize : setting.dataSize.toInt = (moduleOffsets z globals).offset) {startoff lastoff : ℤ}
    {bytes : List UInt8}
    (written : disvar z startoff lastoff
      (offsetGlobals (moduleOffsets z globals).placed globals) = some bytes) (rest : Stream) :
    let pieces := globalPieces z (moduleOffsets z globals).placed globals
    let c : Config := ⟨[], ⟨.moduleData, 0⟩, [], blank setting⟩
    (Loads setting pieces → ∃ items, runItems setting items c (bytes ++ rest) =
        .finished (stores setting pieces c.base c.memory) rest) ∧
      (¬ Loads setting pieces →
        ∃ items memory, runItems setting items c (bytes ++ rest) = .thrown memory) := by
  intro pieces c
  obtain ⟨small, -, laid⟩ := data_laid checked isSize
  obtain ⟨s, isWritten, after⟩ := Option.bind_eq_some_iff.mp written
  rw [disglobals_eq checked.stores checked.typed] at isWritten
  obtain ⟨last, isFlushed, isBytes⟩ := Option.bind_eq_some_iff.mp after
  cases isBytes
  have denotes : Denotes setting c (Output.start startoff lastoff) c :=
    Flushed.denotes ⟨Leads.refl c, rfl, rfl, rfl⟩
  obtain ⟨loaded, failed⟩ := emits_spec pieces denotes laid le_rfl le_rfl small rfl
    (blank_holds setting) isWritten
  rw [List.append_assoc]
  constructor
  · intro loads
    obtain ⟨items, isRead⟩ := ((loaded loads).flush isFlushed).leads ([0] ++ rest)
    refine ⟨items + 1, ?_⟩
    unfold runItems at isRead ⊢
    rw [turns_add, isRead]
    rfl
  · intro fails
    exact (failed fails).mono (disflush_grows isFlushed) ([0] ++ rest)

theorem mem_globalPieces {placed : ℕ → ℕ} {globals : List (Decl × Option Node)} {piece : Piece} :
    piece ∈ globalPieces z placed globals ↔
      ∃ d ∈ globals, piece ∈ initialPieces z (placed d.1.ref) d.2 :=
  List.mem_flatMap

theorem globals_apart {globals : List (Decl × Option Node)} (checked : Checked setting z globals)
    {d e : Decl × Option Node} (member : d ∈ globals) (other : e ∈ globals) (different : d ≠ e) :
    let s := moduleOffsets z globals
    s.placed d.1.ref + (sizetype z d.1.ty).size ≤ s.placed e.1.ref ∨
      s.placed e.1.ref + (sizetype z e.1.ty).size ≤ s.placed d.1.ref := by
  intro s
  let R := fun d e : Decl × Option Node =>
    s.placed d.1.ref + (sizetype z d.1.ty).size ≤ s.placed e.1.ref ∨
      s.placed e.1.ref + (sizetype z e.1.ty).size ≤ s.placed d.1.ref
  have apart : globals.Pairwise R := (globals_placed checked).1.imp Or.inl
  have symm : Std.Symm R := ⟨fun _ _ => Or.symm⟩
  exact apart.forall member other different

/-- What other globals say is apart from a global. -/
theorem outside_of_own {globals : List (Decl × Option Node)} (checked : Checked setting z globals)
    {d : Decl × Option Node} (member : d ∈ globals) {i : ℕ}
    (behind : (moduleOffsets z globals).placed d.1.ref ≤ i)
    (before : i < (moduleOffsets z globals).placed d.1.ref + (sizetype z d.1.ty).size)
    (own : ∀ piece ∈ initialPieces z ((moduleOffsets z globals).placed d.1.ref) d.2,
      i < piece.offset ∨ piece.offset + piece.size ≤ i) :
    ∀ piece ∈ globalPieces z (moduleOffsets z globals).placed globals,
      i < piece.offset ∨ piece.offset + piece.size ≤ i := by
  intro piece isPiece
  obtain ⟨e, isGlobal, isInitial⟩ := mem_globalPieces.mp isPiece
  by_cases same : d = e
  · exact own piece (same ▸ isInitial)
  · obtain ⟨n, isInit, isPiece⟩ := List.mem_flatMap.mp isInitial
    have isSome : e.2 = some n := Option.mem_toList.mp isInit
    have laid := n.laid ((moduleOffsets z globals).placed e.1.ref)
      (checked.typed e isGlobal n isSome) (checked.described e isGlobal n isSome)
      (checked.initable e isGlobal n isSome)
    obtain ⟨isBehind, isBefore⟩ := laid.mem isPiece
    rcases globals_apart checked member isGlobal same with le | le
    · exact Or.inl (by omega)
    · exact Or.inr (by omega)

/-- The module data with all initial values. -/
theorem stores_initialized {globals : List (Decl × Option Node)}
    (checked : Checked setting z globals)
    (isSize : setting.dataSize.toInt = (moduleOffsets z globals).offset) :
    let s := moduleOffsets z globals
    let memory := stores setting (globalPieces z s.placed globals) ⟨.moduleData, 0⟩ (blank setting)
    memory.moduleData.length = s.offset ∧
      ∀ d ∈ globals, Initialized setting z memory (s.placed d.1.ref) d := by
  intro s memory
  obtain ⟨small, isOffset, laid⟩ := data_laid checked isSize
  obtain ⟨outside, shown, unchanged⟩ := stores_spec (globalPieces z s.placed globals) laid le_rfl
    le_rfl small rfl (blank_holds setting) trivial
  have length : memory.moduleData.length = s.offset := by
    rw [← isOffset]
    exact outside.length.trans (List.length_replicate ..)
  refine ⟨length, fun d member => ⟨?_, ?_⟩⟩
  · apply shown_iff.mpr
    intro piece isPiece
    exact shown_iff.mp shown piece (mem_globalPieces.mpr ⟨d, member, isPiece⟩)
  · intro i behind before own
    have inside := (globals_placed checked).2 d member
    apply (unchanged i (outside_of_own checked member behind before own)).trans
    exact List.getElem?_replicate_of_lt (isOffset ▸ by dsimp only [s] at before ⊢; omega)

/-- `n := 7; s := "hi"; a := array[3] of {1 => 9}; b: byte;` -/
def someGlobals : List (Decl × Option Node) :=
  [(⟨0, .dglobal, .plain .tint, 1, none, 1, "n"⟩, some (.tint 7)),
    (⟨1, .dglobal, .plain .tstring, 1, none, 1, "s"⟩, some (.tstring [104, 105])),
    (⟨2, .dglobal, .plain .tarray, 1, none, 1, "a"⟩,
      some (.tainit (.plain .tint) 1 3 (.cons 1 1 (.tint 9) .nil) .nil)),
    (⟨3, .dglobal, .plain .tbyte, 1, none, 1, "b"⟩, none)]

def someSetting : Setting :=
  ⟨[some ⟨16, [0x60]⟩, some ⟨4, [0]⟩], 2, 16, fun _ => true⟩

theorem someGlobals_checked : Checked someSetting false someGlobals where
  refs := by decide
  stores := by simp [someGlobals]
  typed := by
    simp [someGlobals, Node.Typed, Labels.Typed, Wild.Typed, Labels.Ascending]
    decide
  described := by
    have elements : ArrayDescribed someSetting false (.plain .tint) 1 3 :=
      ⟨⟨4, [0]⟩, rfl, rfl, by decide⟩
    simp [someGlobals, Node.Described, Labels.Described, Wild.Described]
    exact elements
  initable := by
    simp [someGlobals]
    decide

theorem someGlobals_loads :
    Loads someSetting
      (globalPieces false (moduleOffsets false someGlobals).placed someGlobals) := by
  simp [someGlobals, globalPieces, initialPieces, Node.pieces, Loads, Piece.Loads, Labels.pieces,
    Wild.pieces]
  refine ⟨by decide +kernel, rfl, by decide, ?_⟩
  show Loads someSetting [.value 4 (.word 9)]
  exact ⟨trivial, trivial⟩

end Globals

end Disvm.DataWriter
