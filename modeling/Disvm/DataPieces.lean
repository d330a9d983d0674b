import Disvm.DataWriter
import Disvm.DataFormat

/-!
# What initial values say

An initial value says which values, texts and arrays there are at which offsets.  The compiler
writes these one after another.
-/

namespace Disvm.DataWriter

open ModuleReader ModuleWriter TypeLayout DataSection

/-- A value of a fixed size. -/
inductive Value where
  | byte (v : UInt8)
  | word (v : Word)
  | big (v : BitVec 64)
  | real (v : BitVec 64)
  deriving DecidableEq

def Value.kind : Value → DataKind
  | .byte _ => .defb
  | .word _ => .defw
  | .big _ => .defl
  | .real _ => .deff

/-- A value as it is written. -/
def Value.bytes : Value → List UInt8
  | .byte v => [v]
  | .word v => disword v
  | .big v => bigBytes v
  | .real v => bigBytes v

/-- A value as it is in memory. -/
def Value.cells : Value → List Cell
  | .byte v => [.byte v]
  | .word v => hostBytes 4 v
  | .big v => hostBytes 8 v
  | .real v => hostBytes 8 v

/-- What is at an offset of the module data or of an array. -/
inductive Piece where
  | value (offset : ℤ) (v : Value)
  | text (offset : ℤ) (name : List UInt8)
  | array (offset : ℤ) (desc left : Word)
  | elements (offset : ℤ) (desc left : Word) (pieces : List Piece)

mutual

def Piece.emit : Piece → Output → Option Output
  | .value offset v, s => discache v.kind offset v.bytes s
  | .text offset name, s => disstring offset name s
  | .array offset desc left, s => disarray offset desc left s
  | .elements offset desc left pieces, s => do
      let s ← disarray offset desc left s
      let s ← disindex offset s
      let s ← emits pieces s
      dispop s

def emits : List Piece → Output → Option Output
  | [], s => some s
  | piece :: pieces, s => do
      let s ← piece.emit s
      emits pieces s

end

theorem emits_append (pieces others : List Piece) (s : Output) :
    emits (pieces ++ others) s = emits pieces s >>= fun s => emits others s := by
  induction pieces generalizing s with
  | nil => rfl
  | cons piece pieces ih =>
      rw [List.cons_append, emits, emits, bind_assoc]
      congr 1
      funext s
      exact ih s

theorem emits_singleton (piece : Piece) (s : Output) : emits [piece] s = piece.emit s := by
  rw [emits]
  exact bind_pure _

section Span

variable {Entry : Type} (entries : ℤ → List Entry)

/-- What there is at so many indices from one on. -/
def span : (count : ℕ) → (first : ℤ) → List Entry
  | 0, _ => []
  | count + 1, first => entries first ++ span count (first + 1)

theorem span_add (count further : ℕ) (first : ℤ) :
    span entries (count + further) first =
      span entries count first ++ span entries further (first + count) := by
  induction count generalizing first with
  | zero => rw [Nat.zero_add, Nat.cast_zero, add_zero]; rfl
  | succ count ih =>
      have next : first + (count + 1 : ℕ) = first + 1 + count := by
        push_cast
        ring
      rw [Nat.add_right_comm, span, span, ih, List.append_assoc, next]

theorem span_congr {others : ℤ → List Entry} {count : ℕ} {first : ℤ}
    (same : ∀ index, first ≤ index → index < first + count → entries index = others index) :
    span entries count first = span others count first := by
  induction count generalizing first with
  | zero => rfl
  | succ count ih =>
      have next : ∀ index, first + 1 ≤ index → index < first + 1 + count →
          entries index = others index := by
        intro index above below
        apply same index <;> omega
      rw [span, span, same first le_rfl (by omega), ih next]

end Span

def iwildPiece (offset : ℤ) (iwild : Option Word) : Piece :=
  .value offset (.word (iwild.getD (-1)))

def casePieces : List Label → (offset : ℤ) → List Piece
  | [], _ => []
  | lab :: labs, offset =>
      .value offset (.word (asInt lab.start)) ::
      .value (offset + iby2wd) (.word (asInt lab.stop + 1)) ::
      .value (offset + iby2wd + iby2wd) (.word lab.pc) ::
      casePieces labs (offset + iby2wd + iby2wd + iby2wd)

def caselPieces : List Label → (offset : ℤ) → List Piece
  | [], _ => []
  | lab :: labs, offset =>
      .value offset (.big lab.start) ::
      .value (offset + iby2lg) (.big (lab.stop + 1)) ::
      .value (offset + iby2lg + iby2lg) (.word lab.pc) ::
      caselPieces labs (offset + iby2lg + iby2lg + 2 * iby2wd)

def casecPieces : List StringLabel → (offset : ℤ) → List Piece
  | [], _ => []
  | lab :: labs, offset =>
      .text offset lab.start ::
      (lab.stop.toList.map (.text (offset + iby2wd)) ++
        .value (offset + iby2wd + iby2wd) (.word lab.pc) ::
        casecPieces labs (offset + iby2wd + iby2wd + iby2wd))

def gotoPieces : List Word → (offset : ℤ) → List Piece
  | [], _ => []
  | pc :: labs, offset => .value offset (.word pc) :: gotoPieces labs (offset + iby2wd)

section Pieces

variable (z : Bool)

mutual

/-- What an initial value at an offset says. -/
def Node.pieces : Node → (offset : ℤ) → List Piece
  | .tbyte val, offset => [.value offset (.byte ⟨val.setWidth 8⟩)]
  | .tint val, offset => [.value offset (.word (asInt val))]
  | .tbig val, offset => [.value offset (.big val)]
  | .tstring name, offset => [.text offset name]
  | .treal rval, offset => [.value offset (.real rval)]
  | .ttuple ids left, offset => left.pieces (sizeids z ids 0 1).offsets offset
  | .tany, _ => []
  | .tcase labs iwild, offset =>
      .value offset (.word (BitVec.ofNat 32 labs.length)) ::
        (casePieces labs (offset + iby2wd) ++
          [iwildPiece (offset + iby2wd + labs.length * (3 * iby2wd)) iwild])
  | .tcasel labs iwild, offset =>
      .value offset (.word (BitVec.ofNat 32 labs.length)) ::
        (caselPieces labs (offset + 2 * iby2wd) ++
          [iwildPiece (offset + 2 * iby2wd + labs.length * (6 * iby2wd)) iwild])
  | .tcasec labs iwild, offset =>
      .value offset (.word (BitVec.ofNat 32 labs.length)) ::
        (casecPieces labs (offset + iby2wd) ++
          [iwildPiece (offset + iby2wd + labs.length * (3 * iby2wd)) iwild])
  | .tgoto labs iwild, offset =>
      .value offset (.word (BitVec.ofNat 32 (labs ++ iwild.toList).length)) ::
        gotoPieces (labs ++ iwild.toList) (offset + iby2wd)
  | .tarray _ desc left, offset => [.array offset desc (asInt left)]
  | .tainit tof desc left labs wild, offset =>
      let esz := (sizetype z tof).size
      [.elements offset desc (asInt left)
        (span (labs.pieces esz fun index => wild.pieces (esz * index)) (asInt left).toInt.toNat 0)]

def Nodes.pieces : Nodes → (offsets : List ℕ) → (offset : ℤ) → List Piece
  | .cons left right, id :: offsets, offset =>
      left.pieces (offset + id) ++ right.pieces offsets offset
  | _, _, _ => []

def Wild.pieces : Wild → (offset : ℤ) → List Piece
  | .nil, _ => []
  | .elem elem, offset => elem.pieces offset

/-- What is at an index of an array: the element of the label that has the index. -/
def Labels.pieces (esz : ℕ) (wild : ℤ → List Piece) : Labels → (index : ℤ) → List Piece
  | .nil, index => wild index
  | .cons start stop elem labs, index =>
      if (asInt start).toInt ≤ index ∧ index ≤ (asInt stop).toInt then elem.pieces (esz * index)
      else labs.pieces esz wild index

end

end Pieces

/-- Labels that come one behind the other, from one index on and before another one. -/
def Labels.Ascending : Labels → (first last : ℤ) → Prop
  | .nil, first, last => first ≤ last
  | .cons start stop _ labs, first, last =>
      first ≤ (asInt start).toInt ∧ (asInt start).toInt ≤ (asInt stop).toInt ∧
        labs.Ascending ((asInt stop).toInt + 1) last

mutual

def Node.Typed : Node → Ty → Prop
  | .tbyte _, t => t = .plain .tbyte
  | .tint _, t => t = .plain .tint ∨ t = .plain .tfix
  | .tbig _, t => t = .plain .tbig
  | .tstring _, t => t = .plain .tstring
  | .treal _, t => t = .plain .treal
  | .ttuple ids left, t => (∃ kind, t = .record kind ids) ∧ left.Typed ids
  | .tany, t => ∃ kind : Kind, t = .plain kind ∧ kind.isptr = true
  | .tcase labs _, t => t = .tcase labs.length
  | .tcasel labs _, t => t = .tcasel labs.length
  | .tcasec labs _, t => t = .tcasec labs.length
  | .tgoto labs iwild, t => t = .tgoto labs.length iwild.isSome
  | .tarray _ _ left, t => t = .plain .tarray ∧ 0 ≤ (asInt left).toInt
  | .tainit tof _ left labs wild, t => t = .plain .tarray ∧
      labs.Ascending 0 (asInt left).toInt ∧ labs.Typed tof ∧ wild.Typed tof

def Nodes.Typed : Nodes → Ids → Prop
  | .nil, _ => True
  | .cons left right, .cons store _ ty next => store = .dfield ∧ left.Typed ty ∧ right.Typed next
  | .cons _ _, .nil => False

def Labels.Typed : Labels → Ty → Prop
  | .nil, _ => True
  | .cons _ _ elem labs, t => elem.Typed t ∧ labs.Typed t

def Wild.Typed : Wild → Ty → Prop
  | .nil, _ => True
  | .elem elem, t => elem.Typed t

end

section Written

variable {z : Bool}

theorem disTcase_eq (labs : List Label) (offset : ℤ) (s : Output) :
    disTcase labs offset s = (emits (casePieces labs offset) s).map
      fun s => (offset + labs.length * (3 * iby2wd), s) := by
  induction labs generalizing offset s with
  | nil => simp [disTcase, casePieces, emits]
  | cons lab labs ih =>
      have behind : offset + iby2wd + iby2wd + iby2wd + labs.length * (3 * iby2wd) =
          offset + (lab :: labs).length * (3 * iby2wd) := by
        rw [List.length_cons]
        push_cast
        ring
      simp only [disTcase, casePieces, emits, Piece.emit, ih, behind, Option.bind_eq_bind,
        Option.map_bind, Function.comp_def]
      rfl

theorem disTcasel_eq (labs : List Label) (offset : ℤ) (s : Output) :
    disTcasel labs offset s = (emits (caselPieces labs offset) s).map
      fun s => (offset + labs.length * (6 * iby2wd), s) := by
  induction labs generalizing offset s with
  | nil => simp [disTcasel, caselPieces, emits]
  | cons lab labs ih =>
      have behind : offset + iby2lg + iby2lg + 2 * iby2wd + labs.length * (6 * iby2wd) =
          offset + (lab :: labs).length * (6 * iby2wd) := by
        unfold iby2lg iby2wd
        rw [List.length_cons]
        push_cast
        ring
      simp only [disTcasel, caselPieces, emits, Piece.emit, ih, behind, Option.bind_eq_bind,
        Option.map_bind, Function.comp_def]
      rfl

theorem disTcasec_eq (labs : List StringLabel) (offset : ℤ) (s : Output) :
    disTcasec labs offset s = (emits (casecPieces labs offset) s).map
      fun s => (offset + labs.length * (3 * iby2wd), s) := by
  induction labs generalizing offset s with
  | nil => simp [disTcasec, casecPieces, emits]
  | cons lab labs ih =>
      have behind : offset + iby2wd + iby2wd + iby2wd + labs.length * (3 * iby2wd) =
          offset + (lab :: labs).length * (3 * iby2wd) := by
        rw [List.length_cons]
        push_cast
        ring
      cases isStop : lab.stop with
      | none =>
          simp only [disTcasec, casecPieces, isStop, Option.toList_none, List.map_nil,
            List.nil_append, emits, Piece.emit, ih, behind, Option.bind_eq_bind, Option.map_bind,
            Function.comp_def]
          rfl
      | some stop =>
          simp only [disTcasec, casecPieces, isStop, Option.toList_some, List.map_cons,
            List.map_nil, List.cons_append, List.nil_append, emits, Piece.emit, ih, behind,
            Option.bind_eq_bind, Option.map_bind, Function.comp_def]
          rfl

theorem disTgoto_eq (labs : List Word) (offset : ℤ) (s : Output) :
    disTgoto labs offset s = (emits (gotoPieces labs offset) s).map
      fun s => (offset + labs.length * iby2wd, s) := by
  induction labs generalizing offset s with
  | nil => simp [disTgoto, gotoPieces, emits]
  | cons pc labs ih =>
      have behind : offset + iby2wd + labs.length * iby2wd =
          offset + (pc :: labs).length * iby2wd := by
        rw [List.length_cons]
        push_cast
        ring
      simp only [disTgoto, gotoPieces, emits, Piece.emit, ih, behind, Option.bind_eq_bind,
        Option.map_bind, Function.comp_def]
      rfl

theorem gotoPieces_append (labs others : List Word) (offset : ℤ) :
    gotoPieces (labs ++ others) offset =
      gotoPieces labs offset ++ gotoPieces others (offset + labs.length * iby2wd) := by
  induction labs generalizing offset with
  | nil => simp [gotoPieces]
  | cons pc labs ih =>
      have behind : offset + iby2wd + labs.length * iby2wd =
          offset + (pc :: labs).length * iby2wd := by
        rw [List.length_cons]
        push_cast
        ring
      rw [List.cons_append, gotoPieces, gotoPieces, ih, behind, List.cons_append]

/-- Elements that are written one after another. -/
theorem disElems_eq {elem : ℤ → Output → Option Output} {pieces : ℤ → List Piece}
    (isElem : ∀ offset s, elem offset s = emits (pieces offset) s) (esz count : ℕ) (last : ℤ)
    (s : Output) :
    disElems elem esz count last s =
      emits (span (fun index => pieces (esz * index)) count last) s := by
  induction count generalizing last s with
  | zero => rfl
  | succ count ih =>
      rw [disElems, span, emits_append, isElem]
      congr 1
      funext s
      exact ih (last + 1) s

/-- Before the first label there is the wildcard. -/
theorem pieces_before {labs : Labels} {first last : ℤ} (ascending : labs.Ascending first last)
    (esz : ℕ) (wild : ℤ → List Piece) {index : ℤ} (before : index < first) :
    labs.pieces z esz wild index = wild index := by
  match labs with
  | .nil => rfl
  | .cons start stop elem labs =>
      obtain ⟨behind, ordered, rest⟩ := ascending
      rw [Labels.pieces, if_neg (by omega)]
      exact pieces_before rest esz wild (by omega)

theorem Labels.Ascending.le {labs : Labels} {first last : ℤ}
    (ascending : labs.Ascending first last) : first ≤ last := by
  match labs with
  | .nil => exact ascending
  | .cons start stop elem labs =>
      obtain ⟨behind, ordered, rest⟩ := ascending
      have later := Labels.Ascending.le rest
      omega

theorem span_nil {Entry : Type} (count : ℕ) (first : ℤ) :
    span (fun _ => ([] : List Entry)) count first = [] := by
  induction count generalizing first with
  | zero => rfl
  | succ count ih => exact ih (first + 1)

mutual

/-- What is written for an initial value is what it says. -/
theorem disdatum_eq {t : Ty} : ∀ (n : Node), n.Typed t → ∀ offset s,
    disdatum z n offset s = emits (n.pieces z offset) s
  | .tbyte val, _, offset, s => by
      rw [Node.pieces, emits_singleton, disdatum]
      rfl
  | .tint val, _, offset, s => by
      rw [Node.pieces, emits_singleton, disdatum]
      rfl
  | .tbig val, _, offset, s => by
      rw [Node.pieces, emits_singleton, disdatum]
      rfl
  | .tstring name, _, offset, s => by
      rw [Node.pieces, emits_singleton, disdatum]
      rfl
  | .treal rval, _, offset, s => by
      rw [Node.pieces, emits_singleton, disdatum]
      rfl
  | .tany, _, offset, s => rfl
  | .ttuple ids left, typed, offset, s => disfields_eq left typed.2 _ offset s
  | .tcase labs iwild, _, offset, s => by
      simp only [disdatum, Node.pieces, emits, emits_append, disTcase_eq, Option.bind_eq_bind,
        Option.bind_map, Function.comp_def, Option.bind_fun_some]
      rfl
  | .tcasel labs iwild, _, offset, s => by
      simp only [disdatum, Node.pieces, emits, emits_append, disTcasel_eq, Option.bind_eq_bind,
        Option.bind_map, Function.comp_def, Option.bind_fun_some]
      rfl
  | .tcasec labs iwild, _, offset, s => by
      simp only [disdatum, Node.pieces, emits, emits_append, disTcasec_eq, Option.bind_eq_bind,
        Option.bind_map, Function.comp_def, Option.bind_fun_some]
      rfl
  | .tgoto labs iwild, _, offset, s => by
      have isCount : (sizetype z (.tgoto labs.length iwild.isSome)).size / iby2wd - 1 =
          (labs ++ iwild.toList).length := by
        rw [sizetype, List.length_append]
        unfold iby2wd
        cases iwild
        all_goals
          simp only [Option.isSome_none, Option.isSome_some, Option.toList_none,
            Option.toList_some, List.length_nil, List.length_singleton, if_true, if_false,
            Bool.false_eq_true]
          omega
      simp only [disdatum, Node.pieces, isCount, gotoPieces_append, emits, emits_append,
        disTgoto_eq, Option.bind_eq_bind, Option.bind_map, Function.comp_def]
      cases iwild with
      | none => rfl
      | some pc =>
          simp only [Option.toList_some, gotoPieces, emits_singleton]
          rfl
  | .tarray tof desc left, _, offset, s => by
      rw [Node.pieces, emits_singleton, disdatum]
      rfl
  | .tainit tof desc left labs wild, typed, offset, s => by
      obtain ⟨-, ascending, areElems, isElem⟩ := typed
      have isWild := diswild_eq wild isElem
      have elems := fun s => dislabels_eq labs areElems ascending isWild (sizetype z tof).size s
      simp only [Int.sub_zero] at elems
      rw [Node.pieces, emits_singleton, Piece.emit, disdatum]
      simp only [← elems, bind_assoc]

theorem disfields_eq {ids : Ids} : ∀ (left : Nodes), left.Typed ids → ∀ offsets offset s,
    disfields z left offsets offset s = emits (left.pieces z offsets offset) s
  | .nil, _, offsets, offset, s => by simp [disfields, Nodes.pieces, emits]
  | .cons left right, typed, [], offset, s => by simp [disfields, Nodes.pieces, emits]
  | .cons left right, typed, id :: offsets, offset, s => by
      cases ids with
      | nil => exact typed.elim
      | cons store linked ty next =>
          obtain ⟨-, isLeft, isRight⟩ := typed
          rw [disfields, Nodes.pieces, emits_append, disdatum_eq left isLeft]
          congr 1
          funext s
          exact disfields_eq right isRight offsets offset s

theorem diswild_eq {t : Ty} : ∀ (wild : Wild), wild.Typed t → ∀ esz count last s,
    disWild (diswild z wild) esz count last s =
      emits (span (fun index => wild.pieces z (esz * index)) count last) s
  | .nil, _, esz, count, last, s => by
      have none : (fun index : ℤ => Wild.nil.pieces z (esz * index)) = fun _ => [] := rfl
      rw [none, span_nil]
      rfl
  | .elem elem, typed, esz, count, last, s =>
      disElems_eq (fun offset s => disdatum_eq elem typed offset s) esz count last s

theorem dislabels_eq {t : Ty} {wild : Wild} {first last : ℤ} : ∀ (labs : Labels), labs.Typed t →
    labs.Ascending first last → (∀ esz count last s,
      disWild (diswild z wild) esz count last s =
        emits (span (fun index => wild.pieces z (esz * index)) count last) s) → ∀ esz s,
    (dislabels z esz (diswild z wild) labs first s >>= fun behind =>
        disWild (diswild z wild) esz (last - behind.1).toNat behind.1 behind.2) =
      emits (span (labs.pieces z esz fun index => wild.pieces z (esz * index))
        (last - first).toNat first) s
  | .nil, _, _, isWild, esz, s => isWild esz _ first s
  | .cons start stop elem labs, typed, ascending, isWild, esz, s => by
      obtain ⟨behind, ordered, rest⟩ := ascending
      have inside := rest.le
      have later := fun s => dislabels_eq labs typed.2 rest isWild esz s
      have isElem : ∀ offset s, disdatum z elem offset s = emits (elem.pieces z offset) s :=
        fun offset s => disdatum_eq elem typed.1 offset s
      generalize isStart : (asInt start).toInt = e at behind ordered
      generalize isStop : (asInt stop).toInt = f at ordered rest inside later
      have isMax : max e (f + 1) = f + 1 := max_eq_right (by omega)
      have count : (last - first).toNat =
          (e - first).toNat + ((f + 1 - e).toNat + (last - (f + 1)).toNat) := by omega
      have first' : first + (e - first).toNat = e := by omega
      have second' : e + (f + 1 - e).toNat = f + 1 := by omega
      rw [count, span_add, span_add, first', second', emits_append]
      have before : span (Labels.pieces z esz (fun index => wild.pieces z (esz * index))
          (.cons start stop elem labs)) (e - first).toNat first =
            span (fun index => wild.pieces z (esz * index)) (e - first).toNat first := by
        apply span_congr
        intro index _ below
        rw [Labels.pieces, if_neg (by omega)]
        exact pieces_before rest esz _ (by omega)
      have here : span (Labels.pieces z esz (fun index => wild.pieces z (esz * index))
          (.cons start stop elem labs)) (f + 1 - e).toNat e =
            span (fun index => elem.pieces z (esz * index)) (f + 1 - e).toNat e := by
        apply span_congr
        intro index above below
        rw [Labels.pieces, if_pos (by omega)]
      have after : span (Labels.pieces z esz (fun index => wild.pieces z (esz * index))
          (.cons start stop elem labs)) (last - (f + 1)).toNat (f + 1) =
            span (labs.pieces z esz fun index => wild.pieces z (esz * index))
              (last - (f + 1)).toNat (f + 1) := by
        apply span_congr
        intro index above _
        rw [Labels.pieces, if_neg (by omega)]
      rw [before, here, after, dislabels, isStart, isStop]
      dsimp only
      rw [isMax]
      simp only [emits_append, bind_assoc, disElems_eq isElem, later]
      rw [isWild]

end

end Written

end Disvm.DataWriter
