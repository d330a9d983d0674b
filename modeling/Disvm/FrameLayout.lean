import Disvm.HalvingSort
import Disvm.SharedLocals
import Disvm.TypeMaps
import Mathlib.Data.List.TakeWhile

/-!
# Frames

The locals of a function are sorted and placed behind its arguments.  The variables of one `:=`
stay together, so that a tuple is moved into all of them at once, and a variable that shares the
place of another one comes behind it.
-/

namespace Disvm.FrameLayout

open RecordLayout TypeLayout TypeMaps SharedLocals

def maxTemp : ℕ := 5 * iby2wd + 3 * iby2wd

def maxAlign : ℕ := iby2lg

section Sorting

variable (z : Bool)

/-- The value `v` of `declmerge`, for the first declarations of two blocks. -/
def precedence (e f : Decl) : ℤ :=
  let fs : ℤ := (sizetype z f.ty).size
  let es : ℤ := (sizetype z e.ty).size
  let v : ℤ := e.link.isNone.toInt - f.link.isNone.toInt
  let v := if v = 0 ∧ (es ≤ iby2wd ∨ fs ≤ iby2wd) then fs - es else v
  let v := if v = 0 then (e.refs : ℤ) - f.refs else v
  let v := if v = 0 then fs - es else v
  if v = 0 ∧ f.name < e.name then -1 else v

/-- `declmerge`, which goes from block to block. -/
def declmerge (e f : List Block) : List Block :=
  e.merge f fun e f => decide (precedence z e.head f.head ≥ 0)

/-- `recdeclsort`, with the number of blocks as fuel. -/
def recdeclsort : (fuel : ℕ) → List Block → List Block
  | 0, d => d
  | fuel + 1, d =>
      if d.length ≤ 1 then d
      else
        declmerge z (recdeclsort fuel (d.take (d.length / 2)))
          (recdeclsort fuel (d.drop (d.length / 2)))

def declsort (d : List Block) : List Block :=
  recdeclsort z d.length d

end Sorting

def needsstore (d : Decl) : Bool :=
  decide (0 < d.refs) && storespace d.store

/-- `vars`; the variables of one `:=` are all referenced. -/
def vars (d : List Block) : List Block :=
  d.filter fun block => needsstore block.head

/-- The state of `idoffsets`: the offset, the alignment of the block, and the offsets of the
declarations. -/
structure Offsets where
  offset : ℕ
  algn : ℕ
  placed : ℕ → ℕ

/-- The link that is followed. -/
def linkOf (d : Decl) : Option ℕ :=
  if d.store = .dlocal then d.link else none

def following (next : List Decl) : List Decl :=
  next.takeWhile (·.nid = 0)

section Idoffsets

variable (z : Bool)

/-- The loop over the other declarations of a block. -/
def widest (a : ℕ) (ds : List Decl) : ℕ :=
  ds.foldl (fun a d => if (sizetype z d.ty).align > a then (sizetype z d.ty).align else a) a

/-- One turn of the loop of `idoffsets` over declarations with storage. -/
def placeDecl (id : Decl) (next : List Decl) (s : Offsets) : Offsets :=
  match linkOf id with
  | some link => { s with placed := Function.update s.placed id.ref (s.placed link) }
  | none =>
      let a := (sizetype z id.ty).align
      let wide := if id.nid > 1 then widest z a (following next) else a
      let algn := if id.nid > 1 then wide else s.algn
      let offset := align s.offset wide
      let behind := offset + (sizetype z id.ty).size
      { offset := if id.nid = 0 ∧ following next = [] then align behind algn else behind
        algn
        placed := Function.update s.placed id.ref offset }

def idoffsetsLoop : List Decl → Offsets → Offsets
  | [], s => s
  | id :: next, s =>
      idoffsetsLoop next (if storespace id.store then placeDecl z id next s else s)

def idoffsets (ids : List Decl) (offset al : ℕ) (placed : ℕ → ℕ) : Offsets :=
  let s := idoffsetsLoop z ids ⟨offset, 1, placed⟩
  { s with offset := align s.offset al }

end Idoffsets

/-- A function: its arguments, its locals after its body has been checked, and its temporaries. -/
structure Function where
  args : List Decl
  scoping : Scoping
  temps : List Block

/-- `d.locals`. -/
def Function.locals (f : Function) : List Block :=
  f.scoping.scopes.flatten ++ f.scoping.fndecls

section Frame

variable (z : Bool)

/-- `loc` in `fncom`. -/
def Function.loc (f : Function) : List Decl :=
  (declsort z (vars f.locals ++ f.temps)).flatMap Block.decls

/-- The offsets of the arguments, which are given when the function is declared. -/
def Function.declared (f : Function) : Offsets :=
  idoffsets z f.args maxTemp iby2wd fun _ => 0

/-- The offsets of all variables, with the size of the frame. -/
def Function.frame (f : Function) : Offsets :=
  idoffsets z (f.loc z) (f.declared z).offset maxAlign (f.declared z).placed

end Frame

section Placing

variable (z : Bool)

def items (ds : List Decl) : List Item :=
  ds.map fun d => item z d.ty

theorem widest_eq (ds : List Decl) {a : ℕ} (positive : 1 ≤ a) :
    widest z a ds = max a (alignment (items z ds)) := by
  induction ds generalizing a with
  | nil => exact (max_eq_left positive).symm
  | cons d ds ih =>
      have step : (if (sizetype z d.ty).align > a then (sizetype z d.ty).align else a) =
          max a (item z d.ty).align := by
        rw [max_def]
        unfold item
        dsimp only
        split_ifs <;> omega
      rw [widest, List.foldl_cons, step, ← widest, ih (positive.trans (le_max_left _ _))]
      exact max_assoc _ _ _

/-- The alignment that a declaration is placed at. -/
def wide (id : Decl) (next : List Decl) : ℕ :=
  if id.nid > 1 then alignment (items z (id :: following next)) else (item z id.ty).align

theorem wide_isPower (id : Decl) (next : List Decl) : (wide z id next).isPowerOfTwo := by
  unfold wide
  split_ifs
  · exact alignment_isPower _
  · exact (item z id.ty).isPower

theorem align_dvd_wide (id : Decl) (next : List Decl) : (item z id.ty).align ∣ wide z id next := by
  unfold wide
  split_ifs
  · exact dvd_alignment _ List.mem_cons_self
  · exact dvd_rfl

/-- A declaration without a link is placed at the next multiple. -/
theorem placeDecl_eq {id : Decl} (own : linkOf id = none) (next : List Decl) (s : Offsets) :
    placeDecl z id next s =
      let algn := if id.nid > 1 then wide z id next else s.algn
      let offset := roundUp s.offset (wide z id next)
      let behind := offset + (item z id.ty).size
      { offset := if id.nid = 0 ∧ following next = [] then align behind algn else behind
        algn
        placed := Function.update s.placed id.ref offset } := by
  have isWide : (if id.nid > 1 then widest z (sizetype z id.ty).align (following next)
      else (sizetype z id.ty).align) = wide z id next := by
    have positive : 1 ≤ (sizetype z id.ty).align := (item z id.ty).positive
    rw [widest_eq z _ positive]
    rfl
  have positive := Nat.pos_of_isPowerOfTwo (wide_isPower z id next)
  have isAlgn : (if id.nid > 1 then (if id.nid > 1
      then widest z (sizetype z id.ty).align (following next) else (sizetype z id.ty).align)
      else s.algn) = if id.nid > 1 then wide z id next else s.algn := by
    rw [isWide]
  unfold placeDecl
  rw [own]
  dsimp only
  rw [isAlgn, isWide, align_eq positive]
  rfl

/-- Where a declaration without a link is placed. -/
theorem placeDecl_own {id : Decl} (own : linkOf id = none) (next : List Decl) {s : Offsets}
    (positive : 0 < s.algn) :
    ∃ offset, (placeDecl z id next s).placed = Function.update s.placed id.ref offset ∧
      s.offset ≤ offset ∧ (sizetype z id.ty).align ∣ offset ∧
      offset + (sizetype z id.ty).size ≤ (placeDecl z id next s).offset ∧
      0 < (placeDecl z id next s).algn := by
  have isWide := Nat.pos_of_isPowerOfTwo (wide_isPower z id next)
  have isAlgn : 0 < if id.nid > 1 then wide z id next else s.algn := by
    split_ifs
    · exact isWide
    · exact positive
  have rounds : ∀ place,
      place ≤ align place (if id.nid > 1 then wide z id next else s.algn) :=
    fun place => (le_roundUp isAlgn place).trans (align_eq isAlgn place).ge
  rw [placeDecl_eq z own]
  refine ⟨_, rfl, le_roundUp isWide _, (align_dvd_wide z id next).trans (dvd_roundUp _ _), ?_,
    isAlgn⟩
  dsimp only
  by_cases last : id.nid = 0 ∧ following next = []
  · rw [if_pos last]
    exact rounds _
  · rw [if_neg last]
    exact le_rfl

theorem placeDecl_linked {id : Decl} {link : ℕ} (isLink : linkOf id = some link)
    (next : List Decl) (s : Offsets) :
    placeDecl z id next s =
      { s with placed := Function.update s.placed id.ref (s.placed link) } := by
  unfold placeDecl
  rw [isLink]

/-- No declaration is linked to itself or to a later one. -/
def TargetsFirst : List Decl → Prop
  | [] => True
  | d :: next =>
      (∀ ref, linkOf d = some ref → ref ∉ (d :: next).map Decl.ref) ∧ TargetsFirst next

/-- Declarations are placed one behind the other, and linked ones where their targets are. -/
structure Laid (ds : List Decl) (start finish : ℕ) (placed : ℕ → ℕ) : Prop where
  order : (ds.filter fun d => (linkOf d).isNone).Pairwise fun d d' =>
    placed d.ref + (sizetype z d.ty).size ≤ placed d'.ref
  own : ∀ d ∈ ds, linkOf d = none → start ≤ placed d.ref ∧
    (sizetype z d.ty).align ∣ placed d.ref ∧ placed d.ref + (sizetype z d.ty).size ≤ finish
  linked : ∀ d ∈ ds, ∀ ref, linkOf d = some ref → placed d.ref = placed ref

/-- What the loop does: declarations outside of the list stay where they are. -/
theorem idoffsetsLoop_spec (ds : List Decl) {s : Offsets} (positive : 0 < s.algn)
    (stored : ∀ d ∈ ds, storespace d.store = true) (refs : (ds.map Decl.ref).Nodup)
    (targets : TargetsFirst ds) :
    (∀ ref ∉ ds.map Decl.ref, (idoffsetsLoop z ds s).placed ref = s.placed ref) ∧
      s.offset ≤ (idoffsetsLoop z ds s).offset ∧
      Laid z ds s.offset (idoffsetsLoop z ds s).offset (idoffsetsLoop z ds s).placed := by
  induction ds generalizing s with
  | nil =>
      exact ⟨fun _ _ => rfl, le_rfl, List.Pairwise.nil, nofun, nofun⟩
  | cons id next ih =>
      obtain ⟨isStored, others⟩ := List.forall_mem_cons.mp stored
      rw [List.map_cons, List.nodup_cons] at refs
      rw [idoffsetsLoop, if_pos isStored]
      cases isLink : linkOf id with
      | none =>
          obtain ⟨offset, isPlaced, behind, aligned, inside, isAlgn⟩ :=
            placeDecl_own z isLink next positive
          obtain ⟨outside, grows, order, own, linked⟩ := ih isAlgn others refs.2 targets.2
          have here : (idoffsetsLoop z next (placeDecl z id next s)).placed id.ref = offset := by
            rw [outside id.ref refs.1, isPlaced, Function.update_self]
          refine ⟨?_, by omega, ?_, ?_, ?_⟩
          · intro ref unknown
            rw [List.map_cons, List.mem_cons, not_or] at unknown
            rw [outside ref unknown.2, isPlaced, Function.update_of_ne unknown.1]
          · rw [List.filter_cons_of_pos (by rw [isLink]; rfl)]
            apply List.Pairwise.cons _ order
            intro d member
            obtain ⟨isNext, isOwn⟩ := List.mem_filter.mp member
            have start := (own d isNext (Option.isNone_iff_eq_none.mp isOwn)).1
            rw [here]
            omega
          · intro d member isOwn
            rcases List.mem_cons.mp member with rfl | later
            · rw [here]
              exact ⟨behind, aligned, by omega⟩
            · have bounds := own d later isOwn
              exact ⟨by omega, bounds.2⟩
          · intro d member ref isRef
            rcases List.mem_cons.mp member with rfl | later
            · rw [isLink] at isRef
              cases isRef
            · exact linked d later ref isRef
      | some link =>
          rw [placeDecl_linked z isLink]
          obtain ⟨outside, grows, order, own, linked⟩ := @ih
            { s with placed := Function.update s.placed id.ref (s.placed link) }
            positive others refs.2 targets.2
          dsimp only at outside
          have isTarget := targets.1 link isLink
          rw [List.map_cons, List.mem_cons, not_or] at isTarget
          refine ⟨?_, grows, ?_, ?_, ?_⟩
          · intro ref unknown
            rw [List.map_cons, List.mem_cons, not_or] at unknown
            rw [outside ref unknown.2, Function.update_of_ne unknown.1]
          · rw [List.filter_cons_of_neg (by rw [isLink]; simp)]
            exact order
          · intro d member isOwn
            rcases List.mem_cons.mp member with rfl | later
            · rw [isLink] at isOwn
              cases isOwn
            · exact own d later isOwn
          · intro d member ref isRef
            rcases List.mem_cons.mp member with rfl | later
            · rw [isLink] at isRef
              cases isRef
              rw [outside d.ref refs.1, outside link isTarget.2, Function.update_self,
                Function.update_of_ne isTarget.1]
            · exact linked d later ref isRef

theorem Laid.mono {ds : List Decl} {start finish further : ℕ} {placed : ℕ → ℕ}
    (laid : Laid z ds start finish placed) (le : finish ≤ further) :
    Laid z ds start further placed where
  order := laid.order
  own d member isOwn := by
    obtain ⟨behind, aligned, inside⟩ := laid.own d member isOwn
    exact ⟨behind, aligned, inside.trans le⟩
  linked := laid.linked

theorem Laid.congr {ds : List Decl} {start finish : ℕ} {placed other : ℕ → ℕ}
    (laid : Laid z ds start finish placed) (same : ∀ d ∈ ds, other d.ref = placed d.ref)
    (unlinked : ∀ d ∈ ds, linkOf d = none) : Laid z ds start finish other where
  order := by
    apply laid.order.imp_of_mem
    intro d d' member isMember before
    rwa [same d (List.mem_filter.mp member).1, same d' (List.mem_filter.mp isMember).1]
  own d member isOwn := by
    rw [same d member]
    exact laid.own d member isOwn
  linked d member ref isLink := by
    rw [unlinked d member] at isLink
    cases isLink

theorem idoffsets_spec (ds : List Decl) {offset al : ℕ} (positive : 0 < al) {placed : ℕ → ℕ}
    (stored : ∀ d ∈ ds, storespace d.store = true) (refs : (ds.map Decl.ref).Nodup)
    (targets : TargetsFirst ds) :
    (∀ ref ∉ ds.map Decl.ref, (idoffsets z ds offset al placed).placed ref = placed ref) ∧
      offset ≤ (idoffsets z ds offset al placed).offset ∧
      al ∣ (idoffsets z ds offset al placed).offset ∧
      Laid z ds offset (idoffsets z ds offset al placed).offset
        (idoffsets z ds offset al placed).placed := by
  obtain ⟨outside, grows, laid⟩ :=
    @idoffsetsLoop_spec z ds ⟨offset, 1, placed⟩ Nat.one_pos stored refs targets
  have rounds : (idoffsetsLoop z ds ⟨offset, 1, placed⟩).offset ≤
      (idoffsets z ds offset al placed).offset :=
    (le_roundUp positive _).trans (align_eq positive _).ge
  have isOffset : (idoffsets z ds offset al placed).offset =
      roundUp (idoffsetsLoop z ds ⟨offset, 1, placed⟩).offset al := align_eq positive _
  exact ⟨outside, le_trans grows rounds, isOffset ▸ dvd_roundUp _ _, laid.mono z rounds⟩

end Placing

section Order

variable {z : Bool}

theorem precedence_neg {e f : Decl} (isLinked : e.link.isSome = true) (isOwn : f.link = none) :
    precedence z e f < 0 := by
  have isLink : e.link.isNone = false := by
    rw [← Option.not_isSome, isLinked]
    rfl
  have isFirst : (false.toInt - true.toInt : ℤ) = -1 := rfl
  unfold precedence
  rw [isLink, isOwn, Option.isNone_none, isFirst]
  norm_num

theorem precedence_nonneg {e f : Decl} (isOwn : e.link = none) (isLinked : f.link.isSome = true) :
    precedence z e f ≥ 0 := by
  have isLink : f.link.isNone = false := by
    rw [← Option.not_isSome, isLinked]
    rfl
  have isFirst : (true.toInt - false.toInt : ℤ) = 1 := rfl
  unfold precedence
  rw [isLink, isOwn, Option.isNone_none, isFirst]
  norm_num

/-- No block with a link comes before one without. -/
def LinkedLast (d : List Block) : Prop :=
  d.Pairwise fun b b' => b.head.link.isSome = true → b'.head.link.isSome = true

theorem declmerge_linkedLast {e f : List Block} (isFirst : LinkedLast e) (isSecond : LinkedLast f) :
    LinkedLast (declmerge z e f) := by
  unfold declmerge
  induction e generalizing f with
  | nil => rwa [List.nil_merge]
  | cons x xs ih =>
      induction f with
      | nil => rwa [List.merge_right]
      | cons y ys ihRight =>
          obtain ⟨first, others⟩ := List.pairwise_cons.mp isFirst
          obtain ⟨second, rest⟩ := List.pairwise_cons.mp isSecond
          rw [List.cons_merge_cons]
          split_ifs with before
          · have follows : x.head.link.isSome = true → y.head.link.isSome = true := by
              intro isLinked
              by_contra own
              have less := @precedence_neg z x.head y.head isLinked (by simpa using own)
              exact absurd (of_decide_eq_true before) (not_le.mpr less)
            apply List.Pairwise.cons _ (ih others isSecond)
            intro b member isLinked
            rcases List.mem_merge.mp member with isFirst | isSecond
            · exact first b isFirst isLinked
            · rcases List.mem_cons.mp isSecond with rfl | later
              · exact follows isLinked
              · exact second b later (follows isLinked)
          · have follows : y.head.link.isSome = true → x.head.link.isSome = true := by
              intro isLinked
              by_contra own
              exact before (decide_eq_true (precedence_nonneg (by simpa using own) isLinked))
            apply List.Pairwise.cons _ (ihRight rest)
            intro b member isLinked
            rcases List.mem_merge.mp member with isFirst | isSecond
            · rcases List.mem_cons.mp isFirst with rfl | later
              · exact follows isLinked
              · exact first b later (follows isLinked)
            · exact second b isSecond isLinked

theorem recdeclsort_eq (fuel : ℕ) (d : List Block) : recdeclsort z fuel d =
    HalvingSort.sort (fun e f => decide (precedence z e.head f.head ≥ 0)) fuel d := by
  induction fuel generalizing d with
  | zero => rfl
  | succ fuel ih =>
      rw [recdeclsort, HalvingSort.sort, ih, ih]
      rfl

theorem recdeclsort_perm (fuel : ℕ) (d : List Block) : (recdeclsort z fuel d).Perm d := by
  rw [recdeclsort_eq]
  exact HalvingSort.sort_perm _ _ _

theorem declsort_perm (d : List Block) : (declsort z d).Perm d :=
  recdeclsort_perm d.length d

theorem recdeclsort_linkedLast (fuel : ℕ) {d : List Block} (enough : d.length ≤ fuel) :
    LinkedLast (recdeclsort z fuel d) := by
  induction fuel generalizing d with
  | zero =>
      rw [recdeclsort, List.length_eq_zero_iff.mp (Nat.le_zero.mp enough)]
      exact List.Pairwise.nil
  | succ fuel ih =>
      rw [recdeclsort]
      split_ifs with short
      · match d with
        | [] => exact List.Pairwise.nil
        | [block] => exact List.pairwise_singleton _ _
        | _ :: _ :: _ => exact absurd short (by simp)
      · apply declmerge_linkedLast
        · apply ih
          rw [List.length_take]
          omega
        · apply ih
          rw [List.length_drop]
          omega

end Order

theorem targetsFirst_of {ds : List Decl}
    (order : ds.Pairwise fun d d' => d.link.isSome = true → d'.link.isSome = true)
    (targets : ∀ d ∈ ds, ∀ ref, d.link = some ref → ∀ e ∈ ds, e.ref = ref → e.link = none) :
    TargetsFirst ds := by
  induction ds with
  | nil => trivial
  | cons d next ih =>
      obtain ⟨first, others⟩ := List.pairwise_cons.mp order
      constructor
      · intro ref isLink member
        have link : d.link = some ref := by
          unfold linkOf at isLink
          split_ifs at isLink
          exact isLink
        have isLinked : d.link.isSome = true := by
          rw [link]
          rfl
        obtain ⟨e, isEntry, isRef⟩ := List.mem_map.mp member
        have own := targets d List.mem_cons_self ref link e isEntry isRef
        rcases List.mem_cons.mp isEntry with rfl | later
        · rw [own] at isLinked
          cases isLinked
        · have follows := first e later isLinked
          rw [own] at follows
          cases follows
      · exact ih others fun e member ref isLink other isOther =>
          targets e (List.mem_cons_of_mem _ member) ref isLink other
            (List.mem_cons_of_mem _ isOther)

theorem targetsFirst_of_unlinked {ds : List Decl} (unlinked : ∀ d ∈ ds, linkOf d = none) :
    TargetsFirst ds := by
  induction ds with
  | nil => trivial
  | cons d ds ih =>
      obtain ⟨own, others⟩ := List.forall_mem_cons.mp unlinked
      refine ⟨fun ref isLink => ?_, ih others⟩
      rw [own] at isLink
      cases isLink

theorem linkedLast_decls {d : List Block} (linkedLast : LinkedLast d) :
    (d.flatMap Block.decls).Pairwise fun d d' => d.link.isSome = true → d'.link.isSome = true := by
  have alone : ∀ (block : Block), ∀ d ∈ block.decls, d.link.isSome = true →
      block.rest = [] ∧ d = block.head := by
    intro block d member isLinked
    by_cases single : block.rest = []
    · unfold Block.decls at member
      rw [single] at member
      exact ⟨single, List.mem_singleton.mp member⟩
    · rw [block.unlinked single d member] at isLinked
      cases isLinked
  rw [List.pairwise_flatMap]
  constructor
  · intro block _
    apply List.pairwise_of_forall_mem_list
    intro d member d' isMember isLinked
    obtain ⟨single, isHead⟩ := alone block d member isLinked
    unfold Block.decls at isMember
    rw [single] at isMember
    rw [List.mem_singleton.mp isMember, ← isHead]
    exact isLinked
  · apply linkedLast.imp
    intro block block' follows d member d' isMember isLinked
    have isHead := follows ((alone block d member isLinked).2 ▸ isLinked)
    have single := (alone block' block'.head List.mem_cons_self isHead).1
    unfold Block.decls at isMember
    rw [single] at isMember
    rwa [List.mem_singleton.mp isMember]

/-- What holds of a function when its locals are placed. -/
structure Function.Checked (z : Bool) (f : Function) : Prop where
  separate : Separate z f.scoping
  args : ∀ d ∈ f.args, d.store = .darg ∧ d.link = none
  temps : ∀ d ∈ f.temps.flatMap Block.decls, d.store = .dlocal ∧ d.link = none
  refs : (f.args.map Decl.ref ++
    (f.scoping.decls ++ f.temps.flatMap Block.decls).map Decl.ref).Nodup
  proper : ∀ d ∈ f.args ++ (f.scoping.decls ++ f.temps.flatMap Block.decls), d.ty.Proper

section Function

variable {z : Bool} {f : Function}

theorem locals_decls (f : Function) : f.locals.flatMap Block.decls = f.scoping.decls :=
  List.flatMap_append

theorem mem_loc {d : Decl} (member : d ∈ f.loc z) :
    d ∈ f.scoping.decls ∨ d ∈ f.temps.flatMap Block.decls := by
  have isLocal := ((declsort_perm (z := z) (vars f.locals ++ f.temps)).flatMap_right
    Block.decls).mem_iff.mp member
  rw [List.flatMap_append] at isLocal
  rcases List.mem_append.mp isLocal with isVar | isTemp
  · obtain ⟨block, isBlock, isDecl⟩ := List.mem_flatMap.mp isVar
    rw [← locals_decls]
    exact Or.inl (List.mem_flatMap.mpr ⟨block, (List.mem_filter.mp isBlock).1, isDecl⟩)
  · exact Or.inr isTemp

/-- Variables that are referenced are placed. -/
theorem mem_loc_of_refs {d : Decl} (member : d ∈ f.scoping.decls) (isLocal : d.store = .dlocal)
    (referenced : 0 < d.refs) : d ∈ f.loc z := by
  rw [← locals_decls] at member
  obtain ⟨block, isBlock, isDecl⟩ := List.mem_flatMap.mp member
  have needs : needsstore block.head = true := by
    unfold needsstore
    by_cases single : block.rest = []
    · unfold Block.decls at isDecl
      rw [single] at isDecl
      rw [← List.mem_singleton.mp isDecl, isLocal, decide_eq_true referenced]
      rfl
    · obtain ⟨isHead, isReferenced⟩ := block.locals single block.head List.mem_cons_self
      rw [isHead, decide_eq_true isReferenced]
      rfl
  apply ((declsort_perm (z := z) (vars f.locals ++ f.temps)).flatMap_right
    Block.decls).mem_iff.mpr
  rw [List.flatMap_append]
  exact List.mem_append_left _
    (List.mem_flatMap.mpr ⟨block, List.mem_filter.mpr ⟨isBlock, needs⟩, isDecl⟩)

/-- A variable that is declared alone is placed for its own references. -/
theorem loc_single {d : Decl} (member : d ∈ f.loc z) (single : d.nid = 1) :
    0 < d.refs ∨ d ∈ f.temps.flatMap Block.decls := by
  have isLocal := ((declsort_perm (z := z) (vars f.locals ++ f.temps)).flatMap_right
    Block.decls).mem_iff.mp member
  rw [List.flatMap_append] at isLocal
  rcases List.mem_append.mp isLocal with isVar | isTemp
  · obtain ⟨block, isBlock, isDecl⟩ := List.mem_flatMap.mp isVar
    have needs := (List.mem_filter.mp isBlock).2
    rcases List.mem_cons.mp isDecl with rfl | isFollower
    · exact Or.inl (of_decide_eq_true (Bool.and_eq_true_iff.mp needs).1)
    · rw [block.followers d isFollower] at single
      cases single
  · exact Or.inr isTemp

theorem loc_perm (z : Bool) (f : Function) : ∃ ds, (f.loc z).Perm ds ∧
    ds.Sublist (f.scoping.decls ++ f.temps.flatMap Block.decls) := by
  refine ⟨_, (declsort_perm (z := z) _).flatMap_right Block.decls, ?_⟩
  rw [List.flatMap_append, ← locals_decls]
  exact (List.filter_sublist.flatMap Block.decls).append_right _

theorem loc_refs (checked : f.Checked z) :
    (f.args.map Decl.ref ++ (f.loc z).map Decl.ref).Nodup := by
  obtain ⟨ds, perm, sublist⟩ := loc_perm z f
  apply ((perm.map Decl.ref).append_left _).nodup_iff.mpr
  exact checked.refs.sublist ((sublist.map Decl.ref).append_left _)

theorem loc_targets (checked : f.Checked z) : TargetsFirst (f.loc z) := by
  apply targetsFirst_of (linkedLast_decls (recdeclsort_linkedLast _ le_rfl))
  intro d member ref isLink e isEntry isRef
  rcases mem_loc member with isDecl | isTemp
  · rcases checked.separate.links d isDecl with none | ⟨dd, isClosed, shares⟩
    · rw [none] at isLink
      cases isLink
    · have target : dd ∈ f.scoping.decls ++ f.temps.flatMap Block.decls :=
        List.mem_append_left _ (List.mem_append_right _ isClosed)
      have isKnown : e ∈ f.scoping.decls ++ f.temps.flatMap Block.decls :=
        List.mem_append.mpr (mem_loc isEntry)
      rw [shares.link] at isLink
      cases isLink
      have refs := (List.nodup_append.mp checked.refs).2.1
      rw [List.inj_on_of_nodup_map refs isKnown target isRef]
      exact shares.own
  · rw [(checked.temps d isTemp).2] at isLink
    cases isLink

theorem loc_stored (checked : f.Checked z) : ∀ d ∈ f.loc z, storespace d.store = true := by
  intro d member
  have isLocal := ((declsort_perm (z := z) (vars f.locals ++ f.temps)).flatMap_right
    Block.decls).mem_iff.mp member
  rw [List.flatMap_append] at isLocal
  rcases List.mem_append.mp isLocal with isVar | isTemp
  · obtain ⟨block, isBlock, isDecl⟩ := List.mem_flatMap.mp isVar
    by_cases single : block.rest = []
    · unfold Block.decls at isDecl
      rw [single] at isDecl
      rw [List.mem_singleton.mp isDecl]
      exact (Bool.and_eq_true_iff.mp (List.mem_filter.mp isBlock).2).2
    · rw [(block.locals single d isDecl).1]
      rfl
  · rw [(checked.temps d isTemp).1]
    rfl

/-- The arguments are placed behind the header of the frame, and the locals behind them. -/
theorem frame_laid (checked : f.Checked z) :
    Laid z f.args maxTemp (f.declared z).offset (f.frame z).placed ∧
      Laid z (f.loc z) (f.declared z).offset (f.frame z).offset (f.frame z).placed ∧
      (f.declared z).offset ≤ (f.frame z).offset ∧ maxAlign ∣ (f.frame z).offset ∧
      ∀ ref ∉ f.args.map Decl.ref ++ (f.loc z).map Decl.ref, (f.frame z).placed ref = 0 := by
  obtain ⟨argRefs, locRefs, apart⟩ := List.nodup_append.mp (loc_refs checked)
  have argStored : ∀ d ∈ f.args, storespace d.store = true := by
    intro d member
    rw [(checked.args d member).1]
    rfl
  have unlinked : ∀ d ∈ f.args, linkOf d = none := by
    intro d member
    unfold linkOf
    rw [(checked.args d member).2, ite_self]
  have argTargets : TargetsFirst f.args := targetsFirst_of_unlinked unlinked
  obtain ⟨unknown, behind, -, argsLaid⟩ := @idoffsets_spec z f.args maxTemp iby2wd (by decide)
    (fun _ => 0) argStored argRefs argTargets
  obtain ⟨outside, grows, aligned, locLaid⟩ := @idoffsets_spec z (f.loc z) (f.declared z).offset
    maxAlign (by decide) (f.declared z).placed (loc_stored checked) locRefs (loc_targets checked)
  refine ⟨argsLaid.congr z ?_ unlinked, locLaid, grows, aligned, ?_⟩
  · intro d member
    apply outside
    intro isLocal
    exact apart d.ref (List.mem_map_of_mem member) d.ref isLocal rfl
  · intro ref isUnknown
    rw [List.mem_append, not_or] at isUnknown
    exact (outside ref isUnknown.2).trans (unknown ref isUnknown.1)

/-- The variable whose place a variable has is one that is stored. -/
def Kept (f : Function) (d : Decl) : Prop :=
  d.link = none ∨ ∃ dd ∈ f.scoping.closed, d.link = some dd.ref ∧ 0 < dd.refs

/-- Two variables are in different bytes. -/
def Apart (z : Bool) (placed : ℕ → ℕ) (d d' : Decl) : Prop :=
  placed d.ref + (sizetype z d.ty).size ≤ placed d'.ref ∨
    placed d'.ref + (sizetype z d'.ty).size ≤ placed d.ref

/-- The place of a variable, and the variable that it belongs to. -/
theorem kept_spec (checked : f.Checked z) {d : Decl} (member : d ∈ f.scoping.decls)
    (isLocal : d.store = .dlocal) (referenced : 0 < d.refs) (kept : Kept f d) :
    ∃ dd ∈ f.loc z, linkOf dd = none ∧ dd.ref = d.slot ∧
      sizetype z dd.ty = sizetype z d.ty ∧
      (f.frame z).placed d.ref = (f.frame z).placed dd.ref := by
  obtain ⟨-, laid, -⟩ := frame_laid checked
  have isPlaced := mem_loc_of_refs (z := z) member isLocal referenced
  rcases checked.separate.links d member with none | ⟨dd, isClosed, shares⟩
  · refine ⟨d, isPlaced, ?_, ?_, rfl, rfl⟩
    · rw [linkOf, none, ite_self]
    · rw [Decl.slot, none, Option.getD_none]
  · have isKept : 0 < dd.refs := by
      rcases kept with none | ⟨dd', isClosed', isLink, isReferenced⟩
      · rw [shares.link] at none
        cases none
      · rw [shares.link] at isLink
        have sameRef := Option.some.inj isLink
        have refs := (List.nodup_append.mp (List.map_append ▸ checked.separate.refs)).2.1
        rwa [List.inj_on_of_nodup_map refs isClosed isClosed' sameRef]
    have target := mem_loc_of_refs (z := z) (List.mem_append_right _ isClosed) shares.isLocal isKept
    refine ⟨dd, target, ?_, ?_, shares.extent.symm, ?_⟩
    · rw [linkOf, shares.own, ite_self]
    · rw [Decl.slot, shares.link, Option.getD_some]
    · apply laid.linked d isPlaced
      rw [linkOf, if_pos isLocal, shares.link]

/-- The target of a link that is not stored is in no frame. -/
theorem dropped_spec (checked : f.Checked z) {d : Decl} (member : d ∈ f.scoping.decls)
    (isLocal : d.store = .dlocal) (referenced : 0 < d.refs) (dropped : ¬ Kept f d) :
    (f.frame z).placed d.ref = 0 := by
  obtain ⟨-, laid, -, -, unknown⟩ := frame_laid checked
  have isPlaced := mem_loc_of_refs (z := z) member isLocal referenced
  rcases checked.separate.links d member with none | ⟨dd, isClosed, shares⟩
  · exact absurd (Or.inl none) dropped
  · have unreferenced : ¬ 0 < dd.refs := fun isReferenced =>
      dropped (Or.inr ⟨dd, isClosed, shares.link, isReferenced⟩)
    have target : dd ∈ f.scoping.decls := List.mem_append_right _ isClosed
    have isLink : linkOf d = some dd.ref := by rw [linkOf, if_pos isLocal, shares.link]
    rw [laid.linked d isPlaced dd.ref isLink]
    apply unknown
    intro known
    rcases List.mem_append.mp known with isArg | isLoc
    · have cross := (List.nodup_append.mp checked.refs).2.2
      exact cross _ isArg _ (List.mem_map_of_mem (List.mem_append_left _ target)) rfl
    · obtain ⟨e, isEntry, isRef⟩ := List.mem_map.mp isLoc
      have refs := (List.nodup_append.mp checked.refs).2.1
      have same : e = dd := List.inj_on_of_nodup_map refs
        (List.mem_append.mpr (mem_loc isEntry)) (List.mem_append_left _ target) isRef
      subst same
      rcases loc_single isEntry shares.isSingle with isReferenced | isTemp
      · exact unreferenced isReferenced
      · rw [List.map_append] at refs
        exact (List.nodup_append.mp refs).2.2 _ (List.mem_map_of_mem target) _
          (List.mem_map_of_mem isTemp) rfl

end Function

/-- The declarations of a function: its variables are different, and each is declared once and
without a link.  Their types are as they come from the source. -/
structure Declared (args : List Decl) (ops : List Op) (temps : List Block) : Prop where
  refs : (args.map Decl.ref ++ ((ops.flatMap Op.declared).map Decl.ref ++
    (temps.flatMap Block.decls).map Decl.ref)).Nodup
  unlinked : ∀ d ∈ ops.flatMap Op.declared, d.link = none
  isArg : ∀ d ∈ args, d.store = .darg ∧ d.link = none
  isTemp : ∀ d ∈ temps.flatMap Block.decls, d.store = .dlocal ∧ d.link = none
  proper : ∀ d ∈ args ++ (ops.flatMap Op.declared ++ temps.flatMap Block.decls), d.ty.Proper

section Checked

variable {z : Bool} {tequal : Ty → Ty → Bool}

theorem Declared.fresh {args : List Decl} {ops : List Op} {temps : List Block}
    (declared : Declared args ops temps) : Fresh ops where
  refs := (List.nodup_append.mp (List.nodup_append.mp declared.refs).2.1).1
  unlinked := declared.unlinked

/-- Variables keep their types while the body is checked. -/
theorem run_declared {ops : List Op} {d : Decl} (member : d ∈ (run z tequal ops begin).decls) :
    ∃ d' ∈ ops.flatMap Op.declared, d'.ty = d.ty :=
  List.mem_map.mp
    (@begin_known z tequal Ty Decl.ty (fun _ _ => rfl) ops _ (List.mem_map_of_mem member))

/-- After its body has been checked, a function is ready for its locals to be placed. -/
theorem checked_of_run {args : List Decl} {ops : List Op} {temps : List Block}
    (declared : Declared args ops temps) :
    Function.Checked z ⟨args, run z tequal ops begin, temps⟩ := by
  have separate := @run_begin z tequal _ declared.fresh
  have known := @begin_known z tequal ℕ Decl.ref (fun _ _ => rfl) ops
  obtain ⟨argRefs, others, cross⟩ := List.nodup_append.mp declared.refs
  obtain ⟨-, tempRefs, apart⟩ := List.nodup_append.mp others
  refine ⟨separate, declared.isArg, declared.isTemp, ?_, ?_⟩
  · rw [List.map_append]
    refine List.nodup_append.mpr
      ⟨argRefs, List.nodup_append.mpr ⟨separate.refs, tempRefs, ?_⟩, ?_⟩
    · exact fun ref member other isTemp => apart ref (known member) other isTemp
    · intro ref member other isOther
      apply cross ref member other
      rcases List.mem_append.mp isOther with isDecl | isTemp
      · exact List.mem_append_left _ (known isDecl)
      · exact List.mem_append_right _ isTemp
  · intro d member
    simp only [List.mem_append] at member
    rcases member with isArg | isDecl | isTemp
    · exact declared.proper d (List.mem_append_left _ isArg)
    · obtain ⟨d', isDeclared, sameTy⟩ := run_declared isDecl
      rw [← sameTy]
      exact declared.proper d' (List.mem_append_right _ (List.mem_append_left _ isDeclared))
    · exact declared.proper d (List.mem_append_right _ (List.mem_append_right _ isTemp))

/-- A local that is in scope at some time, and referenced. -/
structure InScope (s : Scoping) (d : Decl) : Prop where
  isOpen : d ∈ s.opened
  isLocal : d.store = .dlocal
  referenced : 0 < d.refs

/-- Where a variable is in the frame: behind the arguments at a multiple of its alignment, unless
it is linked to a variable that is not stored; then it is at the beginning of the header. -/
structure Located (z : Bool) (f : Function) (d : Decl) : Prop where
  kept : Kept f d → (f.declared z).offset ≤ (f.frame z).placed d.ref ∧
    (sizetype z d.ty).align ∣ (f.frame z).placed d.ref ∧
    (f.frame z).placed d.ref + (sizetype z d.ty).size ≤ (f.frame z).offset ∧
    (f.frame z).placed d.ref + (sizetype z d.ty).size < maxint
  dropped : ¬ Kept f d → (f.frame z).placed d.ref = 0

theorem located_of_checked {f : Function} (checked : f.Checked z) {d : Decl}
    (member : d ∈ f.scoping.decls) (isLocal : d.store = .dlocal) (referenced : 0 < d.refs)
    (fits : (f.frame z).offset < maxint) : Located z f d where
  kept kept := by
    obtain ⟨-, laid, -⟩ := frame_laid checked
    obtain ⟨dd, isPlaced, own, -, extent, same⟩ :=
      kept_spec checked member isLocal referenced kept
    rw [same, ← extent]
    obtain ⟨behind, aligned, inside⟩ := laid.own dd isPlaced own
    exact ⟨behind, aligned, inside, inside.trans_lt fits⟩
  dropped := dropped_spec checked member isLocal referenced

/-- A variable that is declared alone and referenced once. -/
def lone (ref : ℕ) (ty : Ty) (name : String) : Block where
  head := ⟨ref, .dlocal, ty, 1, none, 1, name⟩
  rest := []
  isHead := rfl
  isByte := show 1 < 256 by decide
  followers := nofun
  unlinked := absurd rfl
  locals := absurd rfl

/-- `f(s: string) { { x: int; } y: int; w: byte; }`, up to the last declaration. -/
def sharing : List Op :=
  [.pushscope, .declare (lone 0 (.plain .tint) "x") true, .popscope,
    .declare (lone 1 (.plain .tint) "y") true, .declare (lone 2 (.plain .tbyte) "w") true]

def sharingArgs : List Decl :=
  [⟨3, .darg, .plain .tstring, 1, none, 1, "s"⟩]

theorem sharing_declared : Declared sharingArgs (sharing ++ [.popscope]) [] where
  refs := by decide
  unlinked := by
    simp [sharing, Op.declared, lone, Block.decls]
  isArg := by
    simp [sharingArgs]
  isTemp := nofun
  proper := by
    simp [sharingArgs, sharing, Op.declared, lone, Block.decls, Ty.Proper]

/-- The function after its body has been checked. -/
def sharingFunction : Function :=
  ⟨sharingArgs, run false (fun _ _ => true) (sharing ++ [.popscope]) begin, []⟩

theorem sharing_loc : sharingFunction.loc false = [(lone 2 (.plain .tbyte) "w").head,
    (lone 0 (.plain .tint) "x").head,
    { (lone 1 (.plain .tint) "y").head with link := some 0 }] := by
  have isLocals : sharingFunction.locals = [lone 0 (.plain .tint) "x",
      ⟨{ (lone 1 (.plain .tint) "y").head with link := some 0 }, [], rfl, by decide, nofun,
        absurd rfl, absurd rfl⟩, lone 2 (.plain .tbyte) "w"] := rfl
  have noTemps : sharingFunction.temps = [] := rfl
  rw [Function.loc, isLocals, noTemps]
  simp [vars, declsort, recdeclsort, declmerge, needsstore, lone, storespace, precedence, sizetype,
    Kind.extent, Block.decls, iby2wd]

theorem sharing_frame : (sharingFunction.frame false).offset = 48 := by
  rw [Function.frame, sharing_loc]
  rfl

end Checked

/-- The declarations of a frame as `gendesc` is given them. -/
def toIds : List Decl → Ids
  | [] => .nil
  | d :: ds => .cons d.store d.link.isSome d.ty (toIds ds)

section Descriptor

variable {z : Bool} {f : Function}

theorem visited_toIds (ds : List Decl) (placed : ℕ → ℕ)
    (stored : ∀ d ∈ ds, storespace d.store = true) :
    visited (toIds ds) (ds.map fun d => placed d.ref) =
      (ds.filter fun d => (linkOf d).isNone).map fun d => (placed d.ref, d.ty) := by
  induction ds with
  | nil => rfl
  | cons d ds ih =>
      obtain ⟨isStored, others⟩ := List.forall_mem_cons.mp stored
      have isSkipped : skips d.store d.link.isSome = !(linkOf d).isNone := by
        unfold linkOf
        cases isStore : d.store <;> cases d.link <;> rw [isStore] at isStored <;>
          first | rfl | cases isStored
      rw [toIds, List.map_cons, visited, isSkipped, List.filter_cons, ih others]
      cases (linkOf d).isNone <;> rfl

/-- A variable of a frame holds a pointer at an offset of the frame. -/
def FramePoints (z : Bool) (f : Function) (place : ℕ) : Prop :=
  ∃ d ∈ f.args ++ f.loc z, ∃ inner, Points z d.ty inner ∧ place = (f.frame z).placed d.ref + inner

/-- A variable with a link holds no pointers. -/
theorem not_points_of_linked (checked : f.Checked z)
    (values : ∀ d ∈ f.scoping.decls, isException d.ty = true ∨ IsValue d.ty) {d : Decl}
    (member : d ∈ f.args ++ f.loc z) {ref : ℕ} (isLink : linkOf d = some ref) (place : ℕ) :
    ¬ Points z d.ty place := by
  have link : d.link = some ref := by
    unfold linkOf at isLink
    split_ifs at isLink
    exact isLink
  rcases List.mem_append.mp member with isArg | isLoc
  · rw [(checked.args d isArg).2] at link
    cases link
  · rcases mem_loc isLoc with isDecl | isTemp
    · rcases checked.separate.links d isDecl with none | ⟨dd, -, shares⟩
      · rw [none] at link
        cases link
      · have unzeroed := Bool.or_eq_false_iff.mp shares.unzeroed
        rcases values d isDecl with isExc | isPlain
        · rw [isExc] at unzeroed
          cases unzeroed.1
        · have proper := checked.proper d
            (List.mem_append_right _ (List.mem_append_left _ isDecl))
          exact not_points_of_unzeroed isPlain proper unzeroed.2 place
    · rw [(checked.temps d isTemp).2] at link
      cases link

theorem toIds_proper {ds : List Decl} (proper : ∀ d ∈ ds, d.ty.Proper) : (toIds ds).Proper := by
  induction ds with
  | nil => trivial
  | cons d ds ih =>
      obtain ⟨first, others⟩ := List.forall_mem_cons.mp proper
      exact ⟨first, ih others⟩

end Descriptor

end Disvm.FrameLayout
