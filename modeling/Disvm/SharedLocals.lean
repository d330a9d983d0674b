import Disvm.TypeLayout
import Mathlib.Data.List.Pairwise

/-!
# Locals that share a place

While the compiler checks a function it lets a local without pointers take the place of one whose
scope has ended.  A place that is taken becomes free again when the scope of its taker ends.
-/

namespace Disvm.SharedLocals

open TypeLayout

/-- A `ref Decl` of a variable, with a number that stands for the reference. -/
structure Decl where
  ref : ℕ
  store : Store
  ty : Ty
  nid : ℕ
  link : Option ℕ
  refs : ℕ
  name : String

/-- A variable that is declared alone, or all the variables of one `:=`.  The first of these has
their number. -/
structure Block where
  head : Decl
  rest : List Decl
  isHead : head.nid = rest.length + 1
  isByte : head.nid < 256
  followers : ∀ d ∈ rest, d.nid = 0
  unlinked : rest ≠ [] → ∀ d ∈ head :: rest, d.link = none
  locals : rest ≠ [] → ∀ d ∈ head :: rest, d.store = .dlocal ∧ 0 < d.refs

def Block.decls (block : Block) : List Decl :=
  block.head :: block.rest

mutual

def tmustzero : Ty → Bool
  | .plain kind => kind.isptr
  | .record .tadt ids => mustzero ids
  | .record .ttuple ids => mustzero ids
  | .tadtpick _ _ tof => tmustzero tof
  | _ => false

def mustzero : Ids → Bool
  | .nil => false
  | .cons _ _ ty next => tmustzero ty || mustzero next

end

def isException : Ty → Bool
  | .plain .texception | .record .texception _ => true
  | _ => false

def tzero (t : Ty) : Bool :=
  isException t || tmustzero t

def isptr : Ty → Bool
  | .plain kind => kind == .texception || kind.isptr
  | t => isException t

mutual

/-- A type without exceptions and tables in its values. -/
def IsValue : Ty → Prop
  | .plain _ => True
  | .record .tadt ids => AreValues ids
  | .record .ttuple ids => AreValues ids
  | .tadtpick _ _ tof => IsValue tof
  | _ => False

def AreValues : Ids → Prop
  | .nil => True
  | .cons _ _ ty next => IsValue ty ∧ AreValues next

end

theorem visited_fields {ids : Ids} {offsets : List ℕ} {entry : ℕ × Ty}
    (member : entry ∈ visited ids offsets) (unzeroed : mustzero ids = false)
    (arePlain : AreValues ids) (proper : ids.Proper) :
    tmustzero entry.2 = false ∧ IsValue entry.2 ∧ entry.2.Proper := by
  match ids, offsets with
  | .nil, _ => cases member
  | .cons _ _ _ _, [] => cases member
  | .cons store linked ty next, offset :: offsets =>
      rw [mustzero, Bool.or_eq_false_iff] at unzeroed
      rw [visited] at member
      split_ifs at member
      · exact visited_fields member unzeroed.2 arePlain.2 proper.2
      · rcases List.mem_cons.mp member with rfl | later
        · exact ⟨unzeroed.1, arePlain.1, proper.1⟩
        · exact visited_fields later unzeroed.2 arePlain.2 proper.2

/-- Values that need not be zeroed hold no pointers. -/
theorem not_points_of_unzeroed {z : Bool} {t : Ty} (isPlain : IsValue t) (proper : t.Proper)
    (unzeroed : tmustzero t = false) (place : ℕ) : ¬ Points z t place := by
  intro points
  induction points with
  | pointer isptr =>
      rw [tmustzero, isptr] at unzeroed
      cases unzeroed
  | @field kind ids offset inner ty member holds ih =>
      cases kind with
      | texception => exact isPlain
      | tadt =>
          obtain ⟨isUnzeroed, isInner, isProper⟩ :=
            visited_fields member unzeroed isPlain proper.2
          exact ih isInner isProper isUnzeroed
      | ttuple =>
          obtain ⟨isUnzeroed, isInner, isProper⟩ :=
            visited_fields member unzeroed isPlain proper.2
          exact ih isInner isProper isUnzeroed
  | @pick ids own tof offset inner ty member holds ih =>
      obtain ⟨members, picked, rfl, isTuple⟩ := proper
      have isField : (offset, ty) ∈ fields z (pickcon ids own) 0 :=
        mkadtpickcon_fields z members picked ▸ List.mem_cons_of_mem _ member
      obtain ⟨isUnzeroed, isInner, isProper⟩ := visited_fields isField unzeroed isPlain isTuple.2
      exact ih isInner isProper isUnzeroed
  | channel _ => exact isPlain
  | start _ => exact isPlain
  | stop _ => exact isPlain

/-- The scopes that are open, the innermost first, the declarations of those that have ended, and
the references with a `tref`. -/
structure Scoping where
  scopes : List (List Block)
  fndecls : List Block
  tref : List ℕ

def Scoping.opened (s : Scoping) : List Decl :=
  s.scopes.flatten.flatMap Block.decls

def Scoping.closed (s : Scoping) : List Decl :=
  s.fndecls.flatMap Block.decls

section Shareloc

variable (z : Bool) (tequal : Ty → Ty → Bool)

/-- The place of `dd` is taken for `d`.  Descriptors are not compared, since the types are not
zeroed where this is reached. -/
def takes (tref : List ℕ) (d dd : Decl) : Bool :=
  if dd.store ≠ .dlocal ∨ dd.nid ≠ 1 ∨ dd.link ≠ none ∨ dd.ref ∈ tref then false
  else if sizetype z d.ty ≠ sizetype z dd.ty then false
  else
    let zeroed := (tzero d.ty).toNat + (tzero dd.ty).toNat
    if zeroed > 0 then false
    else if tequal d.ty dd.ty then true
    else if zeroed = 1 then false
    else zeroed == 0 || isptr d.ty || isptr dd.ty

/-- The link that `shareloc` leaves in `d`. -/
def shareloc (s : Scoping) (d : Decl) : Option ℕ :=
  if d.store ≠ .dlocal ∨ d.nid ≠ 1 then d.link
  else ((s.closed.find? (takes z tequal s.tref d)).map Decl.ref).or d.link

/-- What happens to scopes while a function is checked.  Some variables, such as those of a pick,
do not share. -/
inductive Op where
  | pushscope
  | declare (block : Block) (shares : Bool)
  | popscope

/-- A variable that is declared alone, with a link. -/
def Block.share (block : Block) (link : Option ℕ) : Block :=
  if alone : block.rest = [] then
    { block with
      head := { block.head with link }
      unlinked := fun some => absurd alone some
      locals := fun some => absurd alone some }
  else block

def Op.apply (s : Scoping) : Op → Scoping
  | .pushscope => { s with scopes := [] :: s.scopes }
  | .declare block shares =>
      let link := if shares then shareloc z tequal s block.head else none
      match s.scopes with
      | [] => s
      | scope :: scopes =>
          { s with
            scopes := (scope ++ [block.share link]) :: scopes
            tref := link.toList ++ s.tref }
  | .popscope =>
      match s.scopes with
      | [] => s
      | scope :: scopes =>
          { scopes
            fndecls := s.fndecls ++ scope
            tref := s.tref.filter fun ref => ∀ d ∈ scope.flatMap Block.decls, d.link ≠ some ref }

def run (ops : List Op) (s : Scoping) : Scoping :=
  ops.foldl (Op.apply z tequal) s

end Shareloc

/-- The declarations of an operation, as they are before they share. -/
def Op.declared : Op → List Decl
  | .declare block _ => block.decls
  | _ => []

def Scoping.decls (s : Scoping) : List Decl :=
  s.opened ++ s.closed

/-- The variable whose place a variable is in. -/
def Decl.slot (d : Decl) : ℕ :=
  d.link.getD d.ref

/-- A variable has the place of another one. -/
structure Shares (z : Bool) (d dd : Decl) : Prop where
  link : d.link = some dd.ref
  store : d.store = .dlocal
  single : d.nid = 1
  isLocal : dd.store = .dlocal
  isSingle : dd.nid = 1
  own : dd.link = none
  extent : sizetype z d.ty = sizetype z dd.ty
  unzeroed : tzero d.ty = false
  isUnzeroed : tzero dd.ty = false

/-- Places are shared with variables whose scopes have ended, each with one open variable. -/
structure Separate (z : Bool) (s : Scoping) : Prop where
  refs : (s.decls.map Decl.ref).Nodup
  links : ∀ d ∈ s.decls, d.link = none ∨ ∃ dd ∈ s.closed, Shares z d dd
  busy : ∀ d ∈ s.opened, ∀ ref, d.link = some ref → ref ∈ s.tref
  once : s.opened.Pairwise fun d d' => ∀ ref, d.link = some ref → d'.link ≠ some ref

section Steps

variable {z : Bool} {tequal : Ty → Ty → Bool} {s : Scoping}

theorem takes_spec {tref : List ℕ} {d dd : Decl} (isTaken : takes z tequal tref d dd = true) :
    (dd.store = .dlocal ∧ dd.nid = 1 ∧ dd.link = none ∧ dd.ref ∉ tref) ∧
      sizetype z d.ty = sizetype z dd.ty ∧ tzero d.ty = false ∧ tzero dd.ty = false := by
  unfold takes at isTaken
  split_ifs at isTaken with other differs
  all_goals
    simp only [not_or, not_not] at other differs
    refine ⟨other, differs, ?_⟩
    cases first : tzero d.ty <;> cases second : tzero dd.ty <;> simp [first, second] at isTaken ⊢

/-- A link is to a variable that is closed and free. -/
theorem shareloc_spec {d : Decl} (unlinked : d.link = none) {ref : ℕ}
    (isLink : shareloc z tequal s d = some ref) :
    ∃ dd ∈ s.closed, dd.ref = ref ∧ ref ∉ s.tref ∧ Shares z { d with link := some ref } dd := by
  unfold shareloc at isLink
  rw [unlinked, Option.or_none] at isLink
  split_ifs at isLink with fits
  rw [not_or, not_not, not_not] at fits
  obtain ⟨dd, isFound, rfl⟩ := Option.map_eq_some_iff.mp isLink
  obtain ⟨⟨isLocal, isSingle, own, free⟩, extent, unzeroed, isUnzeroed⟩ :=
    takes_spec (List.find?_some isFound)
  exact ⟨dd, List.mem_of_find?_eq_some isFound, rfl, free, rfl, fits.1, fits.2, isLocal, isSingle,
    own, extent, unzeroed, isUnzeroed⟩

theorem Block.share_decls (block : Block) (link : Option ℕ) :
    (block.share link).decls = block.decls ∨
      block.decls = [block.head] ∧ (block.share link).decls = [{ block.head with link }] := by
  unfold Block.share
  split_ifs with alone
  · refine Or.inr ⟨?_, ?_⟩
    · rw [Block.decls, alone]
    · unfold Block.decls
      dsimp only
      rw [alone]
  · exact Or.inl rfl

/-- Links do not change what else is known of declarations. -/
theorem Block.share_map {Value : Type} {known : Decl → Value}
    (kept : ∀ d link, known { d with link } = known d) (block : Block) (link : Option ℕ) :
    (block.share link).decls.map known = block.decls.map known := by
  rcases block.share_decls link with same | ⟨isAlone, isLinked⟩
  · rw [same]
  · rw [isAlone, isLinked, List.map_singleton, List.map_singleton, kept]

theorem declare_opened {scope : List Block} {scopes : List (List Block)} (block : Block)
    (tref : List ℕ) (isScopes : s.scopes = scope :: scopes) :
    (Scoping.mk ((scope ++ [block]) :: scopes) s.fndecls tref).opened.Perm
      (block.decls ++ s.opened) := by
  unfold Scoping.opened
  rw [isScopes]
  simp only [List.flatten_cons, List.flatMap_append, List.flatMap_cons, List.flatMap_nil,
    List.append_nil, List.append_assoc]
  exact List.perm_append_comm_assoc _ _ _

theorem declare_decls {scope : List Block} {scopes : List (List Block)} (block : Block)
    (tref : List ℕ) (isScopes : s.scopes = scope :: scopes) :
    (Scoping.mk ((scope ++ [block]) :: scopes) s.fndecls tref).decls.Perm
      (block.decls ++ s.decls) := by
  unfold Scoping.decls
  rw [← List.append_assoc]
  exact (declare_opened block tref isScopes).append_right s.closed

/-- Variables that are not known yet are declared in the innermost scope. -/
theorem Separate.declare {scope : List Block} {scopes : List (List Block)} {block : Block}
    {link : Option ℕ} (separate : Separate z s) (isScopes : s.scopes = scope :: scopes)
    (fresh : (block.decls.map Decl.ref ++ s.decls.map Decl.ref).Nodup)
    (linked : ∀ d ∈ block.decls, d.link = none ∨ block.decls = [d] ∧ d.link = link ∧
      ∃ dd ∈ s.closed, dd.ref ∉ s.tref ∧ Shares z d dd) :
    Separate z { s with
      scopes := (scope ++ [block]) :: scopes
      tref := link.toList ++ s.tref } := by
  have perm := declare_opened block (link.toList ++ s.tref) isScopes
  have symmetric : ∀ {d d' : Decl}, (∀ ref, d.link = some ref → d'.link ≠ some ref) →
      ∀ ref, d'.link = some ref → d.link ≠ some ref :=
    fun different ref isLink same => different ref same isLink
  refine ⟨?_, ?_, ?_, ?_⟩
  · apply ((declare_decls block _ isScopes).map Decl.ref).nodup_iff.mpr
    rw [List.map_append]
    exact fresh
  · intro d member
    rcases List.mem_append.mp member with isOpen | isClosed
    · rcases List.mem_append.mp (perm.mem_iff.mp isOpen) with isNew | isOld
      · exact (linked d isNew).imp_right fun shares =>
          shares.2.2.imp fun dd both => ⟨both.1, both.2.2⟩
      · exact separate.links d (List.mem_append_left _ isOld)
    · exact separate.links d (List.mem_append_right _ isClosed)
  · intro d member ref isLink
    rcases List.mem_append.mp (perm.mem_iff.mp member) with isNew | isOld
    · rcases linked d isNew with none | ⟨-, same, -⟩
      · rw [none] at isLink
        cases isLink
      · exact List.mem_append_left _ (by rw [← same, isLink]; exact List.mem_cons_self)
    · exact List.mem_append_right _ (separate.busy d isOld ref isLink)
  · apply (perm.pairwise_iff symmetric).mpr
    rw [List.pairwise_append]
    refine ⟨?_, separate.once, ?_⟩
    · by_cases alone : ∃ d, block.decls = [d]
      · obtain ⟨d, isAlone⟩ := alone
        rw [isAlone]
        exact List.pairwise_singleton _ _
      · apply List.pairwise_of_forall_mem_list
        intro d member d' _ ref isLink
        rcases linked d member with none | ⟨isAlone, -⟩
        · rw [none] at isLink
          cases isLink
        · exact absurd ⟨d, isAlone⟩ alone
    · intro d isNew d' isOld ref isLink isOther
      rcases linked d isNew with none | ⟨-, -, dd, -, free, shares⟩
      · rw [none] at isLink
        cases isLink
      · rw [shares.link] at isLink
        cases isLink
        exact free (separate.busy d' isOld _ isOther)

theorem popscope_decls {scope : List Block} {scopes : List (List Block)} (tref : List ℕ)
    (isScopes : s.scopes = scope :: scopes) :
    (Scoping.mk scopes (s.fndecls ++ scope) tref).decls.Perm s.decls := by
  unfold Scoping.decls Scoping.opened Scoping.closed
  rw [isScopes, List.flatten_cons, List.flatMap_append, List.flatMap_append,
    ← List.append_assoc, List.append_assoc (scope.flatMap _)]
  exact List.perm_append_comm

/-- The innermost scope ends, and the places of its variables become free. -/
theorem Separate.popscope {scope : List Block} {scopes : List (List Block)}
    (separate : Separate z s) (isScopes : s.scopes = scope :: scopes) :
    Separate z {
      scopes
      fndecls := s.fndecls ++ scope
      tref := s.tref.filter fun ref => ∀ d ∈ scope.flatMap Block.decls, d.link ≠ some ref } := by
  have opened : s.opened = scope.flatMap Block.decls ++ scopes.flatten.flatMap Block.decls := by
    unfold Scoping.opened
    rw [isScopes, List.flatten_cons, List.flatMap_append]
  have closed : (s.fndecls ++ scope).flatMap Block.decls =
      s.closed ++ scope.flatMap Block.decls := by
    rw [List.flatMap_append]
    rfl
  have perm := @popscope_decls s scope scopes
    (s.tref.filter fun ref => ∀ d ∈ scope.flatMap Block.decls, d.link ≠ some ref) isScopes
  obtain ⟨innermost, outer, apart⟩ := List.pairwise_append.mp (opened ▸ separate.once)
  refine ⟨?_, ?_, ?_, outer⟩
  · exact (perm.map Decl.ref).nodup_iff.mpr separate.refs
  · intro d member
    refine (separate.links d (perm.mem_iff.mp member)).imp_right fun shares => ?_
    obtain ⟨dd, isClosed, shares⟩ := shares
    refine ⟨dd, ?_, shares⟩
    show dd ∈ (s.fndecls ++ scope).flatMap Block.decls
    rw [closed]
    exact List.mem_append_left _ isClosed
  · intro d member ref isLink
    have isOpen : d ∈ s.opened := opened ▸ List.mem_append_right _ member
    refine List.mem_filter.mpr ⟨separate.busy d isOpen ref isLink, ?_⟩
    apply decide_eq_true
    intro other isOther same
    exact apart other isOther d member ref same isLink

end Steps

/-- The variables are declared once and without links. -/
structure Fresh (ops : List Op) : Prop where
  refs : ((ops.flatMap Op.declared).map Decl.ref).Nodup
  unlinked : ∀ d ∈ ops.flatMap Op.declared, d.link = none

/-- The body of a function begins. -/
def begin : Scoping :=
  ⟨[[]], [], []⟩

section Runs

variable {z : Bool} {tequal : Ty → Ty → Bool}

theorem share_linked {s : Scoping} {block : Block} (unlinked : ∀ d ∈ block.decls, d.link = none)
    {shares : Bool} {link : Option ℕ}
    (isLink : (if shares then shareloc z tequal s block.head else none) = link) :
    ∀ d ∈ (block.share link).decls, d.link = none ∨ (block.share link).decls = [d] ∧
      d.link = link ∧ ∃ dd ∈ s.closed, dd.ref ∉ s.tref ∧ Shares z d dd := by
  intro d member
  rcases block.share_decls link with same | ⟨-, alone⟩
  · exact Or.inl (unlinked d (same ▸ member))
  · rw [alone] at member ⊢
    cases List.mem_singleton.mp member
    cases link with
    | none => exact Or.inl rfl
    | some ref =>
        cases shares with
        | false => cases isLink
        | true =>
            have isHead := unlinked block.head List.mem_cons_self
            obtain ⟨dd, isClosed, rfl, free, shares⟩ := shareloc_spec isHead isLink
            exact Or.inr ⟨rfl, rfl, dd, isClosed, free, shares⟩

/-- One step keeps places separate and loses no variable. -/
theorem apply_spec {s : Scoping} (separate : Separate z s) (op : Op)
    (fresh : (op.declared.map Decl.ref ++ s.decls.map Decl.ref).Nodup)
    (unlinked : ∀ d ∈ op.declared, d.link = none) :
    Separate z (op.apply z tequal s) ∧ s.decls ⊆ (op.apply z tequal s).decls := by
  cases op with
  | pushscope =>
      exact ⟨⟨separate.refs, separate.links, separate.busy, separate.once⟩, fun _ => id⟩
  | popscope =>
      cases isScopes : s.scopes with
      | nil =>
          unfold Op.apply
          rw [isScopes]
          exact ⟨separate, fun _ => id⟩
      | cons scope scopes =>
          unfold Op.apply
          rw [isScopes]
          exact ⟨separate.popscope isScopes, (popscope_decls _ isScopes).symm.subset⟩
  | declare block shares =>
      cases isScopes : s.scopes with
      | nil =>
          unfold Op.apply
          rw [isScopes]
          exact ⟨separate, fun _ => id⟩
      | cons scope scopes =>
          unfold Op.apply
          rw [isScopes]
          dsimp only
          generalize isLink :
            (if shares then shareloc z tequal s block.head else none) = link
          have perm := declare_decls (block.share link) (link.toList ++ s.tref) isScopes
          constructor
          · apply separate.declare isScopes _ (share_linked unlinked isLink)
            rw [Block.share_map fun _ _ => rfl]
            exact fresh
          · exact fun d member => perm.symm.subset (List.mem_append_right _ member)

/-- What is known of the declarations after a step, their links apart. -/
theorem apply_known {Value : Type} {known : Decl → Value}
    (kept : ∀ d link, known { d with link } = known d) (op : Op) (s : Scoping) :
    (op.apply z tequal s).decls.map known ⊆ op.declared.map known ++ s.decls.map known := by
  cases op with
  | pushscope => exact fun _ => id
  | popscope =>
      cases isScopes : s.scopes with
      | nil =>
          unfold Op.apply
          rw [isScopes]
          exact fun _ => id
      | cons scope scopes =>
          unfold Op.apply
          rw [isScopes]
          exact ((popscope_decls _ isScopes).map known).subset
  | declare block shares =>
      cases isScopes : s.scopes with
      | nil =>
          unfold Op.apply
          rw [isScopes]
          exact fun _ => List.mem_append_right _
      | cons scope scopes =>
          unfold Op.apply
          rw [isScopes]
          dsimp only
          generalize (if shares then shareloc z tequal s block.head else none) = link
          have isKnown := ((declare_decls (block.share link) (link.toList ++ s.tref)
            isScopes).map known).subset
          rwa [List.map_append, Block.share_map kept] at isKnown

theorem run_append (ops later : List Op) (s : Scoping) :
    run z tequal (ops ++ later) s = run z tequal later (run z tequal ops s) :=
  List.foldl_append

/-- A run keeps places separate and loses no variable. -/
theorem run_spec (ops : List Op) {s : Scoping} (separate : Separate z s)
    (fresh : ((ops.flatMap Op.declared).map Decl.ref ++ s.decls.map Decl.ref).Nodup)
    (unlinked : ∀ d ∈ ops.flatMap Op.declared, d.link = none) :
    Separate z (run z tequal ops s) ∧ s.decls ⊆ (run z tequal ops s).decls := by
  induction ops generalizing s with
  | nil => exact ⟨separate, fun _ => id⟩
  | cons op ops ih =>
      rw [List.flatMap_cons, List.map_append, List.append_assoc] at fresh
      rw [List.flatMap_cons, List.forall_mem_append] at unlinked
      have isFresh : (op.declared.map Decl.ref ++ s.decls.map Decl.ref).Nodup :=
        fresh.sublist ((List.sublist_append_right _ _).append_left _)
      obtain ⟨isSeparate, grows⟩ := @apply_spec z tequal s separate op isFresh unlinked.1
      have known := @apply_known z tequal ℕ Decl.ref (fun _ _ => rfl) op s
      have laterFresh : ((ops.flatMap Op.declared).map Decl.ref ++
          (op.apply z tequal s).decls.map Decl.ref).Nodup := by
        obtain ⟨-, others, apart⟩ := List.nodup_append.mp fresh
        obtain ⟨isOps, -, separated⟩ := List.nodup_append.mp others
        refine List.nodup_append.mpr ⟨isOps, isSeparate.refs, ?_⟩
        intro ref member other isKnown
        rcases List.mem_append.mp (known isKnown) with isNew | isOld
        · exact (apart other isNew ref (List.mem_append_left _ member)).symm
        · exact separated ref member other isOld
      obtain ⟨isLater, growsLater⟩ := ih isSeparate laterFresh unlinked.2
      exact ⟨isLater, fun d member => growsLater (grows member)⟩

/-- What is known of the declarations after a run, their links apart. -/
theorem run_known {Value : Type} {known : Decl → Value}
    (kept : ∀ d link, known { d with link } = known d) (ops : List Op) (s : Scoping) :
    (run z tequal ops s).decls.map known ⊆
      (ops.flatMap Op.declared).map known ++ s.decls.map known := by
  induction ops generalizing s with
  | nil => exact fun _ => id
  | cons op ops ih =>
      intro value member
      rw [List.flatMap_cons, List.map_append, List.append_assoc]
      rcases List.mem_append.mp (ih (op.apply z tequal s) member) with isLater | isKnown
      · exact List.mem_append_right _ (List.mem_append_left _ isLater)
      · rcases List.mem_append.mp (apply_known kept op s isKnown) with isNew | isOld
        · exact List.mem_append_left _ isNew
        · exact List.mem_append_right _ (List.mem_append_right _ isOld)

theorem separate_begin : Separate z begin :=
  ⟨List.nodup_nil, nofun, nofun, List.Pairwise.nil⟩

theorem begin_decls : begin.decls = [] :=
  rfl

theorem run_begin {ops : List Op} (fresh : Fresh ops) : Separate z (run z tequal ops begin) := by
  have refs : ((ops.flatMap Op.declared).map Decl.ref ++ begin.decls.map Decl.ref).Nodup := by
    rw [begin_decls, List.map_nil, List.append_nil]
    exact fresh.refs
  exact (run_spec ops separate_begin refs fresh.unlinked).1

/-- The variables of a function are those that are declared in it. -/
theorem begin_known {Value : Type} {known : Decl → Value}
    (kept : ∀ d link, known { d with link } = known d) (ops : List Op) :
    (run z tequal ops begin).decls.map known ⊆ (ops.flatMap Op.declared).map known := by
  have isKnown := @run_known z tequal Value known kept ops begin
  rwa [begin_decls, List.map_nil, List.append_nil] at isKnown

/-- Variables that have been declared stay declared. -/
theorem run_grows {ops later : List Op} (fresh : Fresh (ops ++ later)) :
    Separate z (run z tequal ops begin) ∧
      (run z tequal ops begin).decls ⊆ (run z tequal (ops ++ later) begin).decls := by
  have refs := fresh.refs
  have unlinked := fresh.unlinked
  rw [List.flatMap_append, List.map_append] at refs
  rw [List.flatMap_append, List.forall_mem_append] at unlinked
  obtain ⟨isFirst, isLater, apart⟩ := List.nodup_append.mp refs
  have separate := @run_begin z tequal ops ⟨isFirst, unlinked.1⟩
  have known := @begin_known z tequal ℕ Decl.ref (fun _ _ => rfl) ops
  rw [run_append]
  refine ⟨separate, (run_spec later separate ?_ unlinked.2).2⟩
  refine List.nodup_append.mpr ⟨isLater, separate.refs, ?_⟩
  exact fun ref member other isKnown => (apart other (known isKnown) ref member).symm

end Runs

/-- Open variables are in different places. -/
theorem Separate.slot_ne {z : Bool} {s : Scoping} (separate : Separate z s) {d d' : Decl}
    (isOpen : d ∈ s.opened) (isOpen' : d' ∈ s.opened) (different : d.ref ≠ d'.ref) :
    d.slot ≠ d'.slot := by
  have unshared : ∀ {d d' : Decl}, d ∈ s.opened → d' ∈ s.opened → d'.link = none →
      d.ref ≠ d'.ref → d.slot ≠ d'.slot := by
    intro d d' isOpen isOpen' own different
    have isOwn : d'.slot = d'.ref := by rw [Decl.slot, own, Option.getD_none]
    rw [isOwn]
    rcases separate.links d (List.mem_append_left _ isOpen) with none | ⟨dd, isClosed, shares⟩
    · rwa [Decl.slot, none, Option.getD_none]
    · rw [Decl.slot, shares.link, Option.getD_some]
      have refs := separate.refs
      unfold Scoping.decls at refs
      rw [List.map_append] at refs
      exact ((List.nodup_append.mp refs).2.2 _ (List.mem_map_of_mem isOpen') _
        (List.mem_map_of_mem isClosed)).symm
  cases isLink : d.link with
  | none => exact (unshared isOpen' isOpen isLink different.symm).symm
  | some ref =>
      cases isLink' : d'.link with
      | none => exact unshared isOpen isOpen' isLink' different
      | some ref' =>
          have symmetric : Std.Symm fun d d' : Decl =>
              ∀ ref, d.link = some ref → d'.link ≠ some ref :=
            ⟨fun _ _ apart ref isLink same => apart ref same isLink⟩
          have distinct : d ≠ d' := fun same => different (same ▸ rfl)
          have apart := separate.once.forall isOpen isOpen' distinct ref isLink
          rw [Decl.slot, Decl.slot, isLink, isLink']
          rintro rfl
          exact apart isLink'

end Disvm.SharedLocals
