import Disvm.TypeMaps
import Disvm.SortedTables
import Disvm.ModuleRoundTrip
import Mathlib.Data.List.Lex
import Mathlib.Data.Prod.Lex

/-!
# The table of descriptors

While it compiles, the compiler enters a descriptor for every type that it allocates and for every
frame.  The used ones are written behind the one of the module's data, and the machine reads
pointers of objects by them.
-/

namespace Disvm.DescriptorTable

open TypeLayout TypeMaps SortedTables ObjectMemory PointerMaps

/-- A `ref Desc`, with a number that stands for the reference. -/
structure Entry where
  ref : ℕ
  used : Bool
  desc : Descriptor
  deriving DecidableEq, Repr

/-- The list `descriptors`, with the next reference. -/
structure Descriptors where
  entries : List Entry
  next : ℕ
  deriving DecidableEq, Repr

def mapcmp : (a b : List UInt8) → (n : ℕ) → ℤ
  | a :: as, b :: bs, n + 1 => if a ≠ b then (a.toNat : ℤ) - b.toNat else mapcmp as bs n
  | _, _, _ => 0

/-- The loop of `enterdesc`, with the entry that it would make. -/
def enterdescLoop (fresh : Entry) : List Entry → List Entry × Entry
  | [] => ([fresh], fresh)
  | d :: next =>
      if d.desc.size > fresh.desc.size ∨
          d.desc.size = fresh.desc.size ∧ d.desc.nmap > fresh.desc.nmap then
        (fresh :: d :: next, fresh)
      else
        let rest := enterdescLoop fresh next
        if d.desc.size = fresh.desc.size ∧ d.desc.nmap = fresh.desc.nmap then
          let c := mapcmp d.desc.map fresh.desc.map fresh.desc.nmap
          if c = 0 then (d :: next, d)
          else if c > 0 then (fresh :: d :: next, fresh)
          else (d :: rest.1, rest.2)
        else (d :: rest.1, rest.2)

def enterdesc (s : Descriptors) (desc : Descriptor) : Descriptors × ℕ :=
  let entered := enterdescLoop ⟨s.next, false, desc⟩ s.entries
  (⟨entered.1, s.next + 1⟩, entered.2.ref)

/-- `d.used = used`. -/
def Entry.set (ref : ℕ) (used : Bool) (d : Entry) : Entry :=
  if d.ref = ref then { d with used } else d

def usedesc (s : Descriptors) (ref : ℕ) : Descriptors :=
  { s with entries := s.entries.map (Entry.set ref true) }

/-- The end of `resolvedesc`: unused descriptors are taken out, and the one of the module's data
becomes the first.  Descriptors are numbered in this order. -/
def resolvedesc (s : Descriptors) (mod : Descriptor) : List Entry :=
  let g := enterdesc s mod
  let unused := g.1.entries.map (Entry.set g.2 false)
  unused.filter (·.ref = g.2) ++ unused.filter (·.used)

/-- What the compiler needs a descriptor for: values of a size that hold pointers at some
offsets. -/
structure Wanted where
  desc : Descriptor
  size : ℕ
  points : ℕ → Prop
  describes : Describes desc size points

/-- The values of a type. -/
def Wanted.ofType (z : Bool) (t : Ty) (proper : t.Proper)
    (countable : Countable (sizetype z t).size) : Wanted :=
  have isSome : (mktdesc z t).isSome := by
    obtain ⟨desc, isDesc, -⟩ := mktdesc_describes z proper countable
    rw [isDesc]
    rfl
  { desc := (mktdesc z t).get isSome
    size := (sizetype z t).size
    points := Points z t
    describes := by
      obtain ⟨desc, isDesc, describes⟩ := mktdesc_describes z proper countable
      simpa only [isDesc, Option.get_some] using describes }

/-- A descriptor is asked for, to be used or only to be compared. -/
structure Request where
  wanted : Wanted
  uses : Bool

def request (s : Descriptors) (r : Request) : Descriptors × ℕ :=
  let d := enterdesc s r.wanted.desc
  (if r.uses then usedesc d.1 d.2 else d.1, d.2)

/-- The descriptors after some requests, and what the requests were given. -/
def session : List Request → Descriptors → Descriptors × List ℕ
  | [], s => (s, [])
  | r :: requests, s =>
      let given := request s r
      let rest := session requests given.1
      (rest.1, given.2 :: rest.2)

/-- What the list is sorted by. -/
def rank (desc : Descriptor) : ℕ ×ₗ ℕ ×ₗ List ℕ :=
  toLex (desc.size, toLex (desc.nmap, (desc.map.take desc.nmap).map UInt8.toNat))

def Good (desc : Descriptor) : Prop :=
  desc.nmap ≤ desc.map.length

theorem mapcmp_eq (a b : List UInt8) (n : ℕ) (isFirst : n ≤ a.length) (isSecond : n ≤ b.length) :
    (mapcmp a b n = 0 ↔ (a.take n).map UInt8.toNat = (b.take n).map UInt8.toNat) ∧
      (mapcmp a b n > 0 ↔ (b.take n).map UInt8.toNat < (a.take n).map UInt8.toNat) := by
  induction n generalizing a b with
  | zero => cases a <;> cases b <;> simp [mapcmp]
  | succ n ih =>
      match a, b with
      | [], _ => cases isFirst
      | _ :: _, [] => cases isSecond
      | a :: as, b :: bs =>
          have later := ih as bs (Nat.le_of_succ_le_succ isFirst) (Nat.le_of_succ_le_succ isSecond)
          rw [mapcmp, List.take_succ_cons, List.take_succ_cons, List.map_cons, List.map_cons,
            List.cons.injEq, List.cons_lt_cons_iff]
          split_ifs with different
          · have apart : a.toNat ≠ b.toNat := fun same => different (UInt8.toNat_inj.mp same)
            constructor
            · constructor
              · intro same
                omega
              · exact fun both => absurd both.1 apart
            · constructor
              · exact fun before => Or.inl (by omega)
              · rintro (before | ⟨same, -⟩)
                · omega
                · exact absurd same.symm apart
          · rw [not_not] at different
            subst different
            rw [later.1, later.2]
            simp

section Rank

variable {first second : Descriptor}

theorem rank_lt_iff : rank first < rank second ↔
    first.size < second.size ∨ first.size = second.size ∧
      (first.nmap < second.nmap ∨ first.nmap = second.nmap ∧
        (first.map.take first.nmap).map UInt8.toNat <
          (second.map.take second.nmap).map UInt8.toNat) := by
  rw [rank, rank, Prod.Lex.toLex_lt_toLex, Prod.Lex.toLex_lt_toLex]

theorem rank_eq_iff : rank first = rank second ↔
    first.size = second.size ∧ first.nmap = second.nmap ∧
      first.map.take first.nmap = second.map.take second.nmap := by
  rw [rank, rank, toLex_inj, Prod.mk.injEq, toLex_inj, Prod.mk.injEq]
  have injective : Function.Injective (List.map UInt8.toNat) :=
    List.map_injective_iff.mpr fun _ _ => UInt8.toNat_inj.mp
  rw [injective.eq_iff]

end Rank

/-- The loop enters a descriptor into a sorted table. -/
theorem enterdescLoop_eq {fresh : Entry} (isGood : Good fresh.desc) {entries : List Entry}
    (areGood : ∀ d ∈ entries, Good d.desc) :
    enterdescLoop fresh entries = enter (fun d => rank d.desc) fresh entries := by
  induction entries with
  | nil => rfl
  | cons d next ih =>
      obtain ⟨first, later⟩ := List.forall_mem_cons.mp areGood
      rw [enterdescLoop, enter.eq_def, ih later]
      dsimp only
      by_cases same : d.desc.size = fresh.desc.size ∧ d.desc.nmap = fresh.desc.nmap
      · obtain ⟨sameSize, sameMap⟩ := same
        obtain ⟨isZero, isPositive⟩ := mapcmp_eq d.desc.map fresh.desc.map fresh.desc.nmap
          (sameMap ▸ first) isGood
        have before : rank fresh.desc < rank d.desc ↔
            mapcmp d.desc.map fresh.desc.map fresh.desc.nmap > 0 := by
          rw [rank_lt_iff, isPositive, sameSize, sameMap]
          simp
        have equal : rank d.desc = rank fresh.desc ↔
            mapcmp d.desc.map fresh.desc.map fresh.desc.nmap = 0 := by
          rw [rank_eq_iff, isZero, sameSize, sameMap,
            (List.map_injective_iff.mpr fun _ _ => UInt8.toNat_inj.mp).eq_iff]
          simp
        have behind : ¬ (d.desc.size > fresh.desc.size ∨
            d.desc.size = fresh.desc.size ∧ d.desc.nmap > fresh.desc.nmap) := by omega
        rw [if_neg behind, if_pos ⟨sameSize, sameMap⟩]
        by_cases zero : mapcmp d.desc.map fresh.desc.map fresh.desc.nmap = 0
        · have notBefore : ¬ rank fresh.desc < rank d.desc := by
            rw [before]
            omega
          rw [if_pos zero, if_neg notBefore, if_pos (equal.mpr zero)]
        · rw [if_neg zero]
          by_cases positive : mapcmp d.desc.map fresh.desc.map fresh.desc.nmap > 0
          · rw [if_pos positive, if_pos (before.mpr positive)]
          · rw [if_neg positive, if_neg (mt before.mp positive), if_neg (mt equal.mp zero)]
      · have before : rank fresh.desc < rank d.desc ↔ d.desc.size > fresh.desc.size ∨
            d.desc.size = fresh.desc.size ∧ d.desc.nmap > fresh.desc.nmap := by
          rw [rank_lt_iff]
          constructor
          · rintro (less | ⟨isSize, less | ⟨isMap, -⟩⟩)
            · exact Or.inl less
            · exact Or.inr ⟨isSize.symm, less⟩
            · exact absurd ⟨isSize.symm, isMap.symm⟩ same
          · rintro (less | ⟨isSize, less⟩)
            · exact Or.inl less
            · exact Or.inr ⟨isSize.symm, Or.inl less⟩
        have notEqual : rank d.desc ≠ rank fresh.desc := by
          rw [Ne, rank_eq_iff]
          exact fun equal => same ⟨equal.1, equal.2.1⟩
        rw [if_neg same, if_neg notEqual]
        exact if_congr before.symm rfl rfl

/-- The list is sorted, and its references are different and have been given out. -/
structure Interned (s : Descriptors) : Prop where
  sorted : Sorted (fun d : Entry => rank d.desc) s.entries
  refs : (s.entries.map Entry.ref).Nodup
  old : ∀ d ∈ s.entries, d.ref < s.next
  good : ∀ d ∈ s.entries, Good d.desc

/-- Every entry is kept, and a used one stays used. -/
def Keeps (s s' : Descriptors) : Prop :=
  ∀ d ∈ s.entries, ∃ d' ∈ s'.entries, d'.ref = d.ref ∧ d'.desc = d.desc ∧
    (d.used = true → d'.used = true)

theorem Keeps.refl (s : Descriptors) : Keeps s s :=
  fun d member => ⟨d, member, rfl, rfl, id⟩

theorem Keeps.trans {s s' s'' : Descriptors} (first : Keeps s s') (second : Keeps s' s'') :
    Keeps s s'' := by
  intro d member
  obtain ⟨d', isMember, isRef, isDesc, isUsed⟩ := first d member
  obtain ⟨d'', isLater, sameRef, sameDesc, sameUsed⟩ := second d' isMember
  exact ⟨d'', isLater, sameRef.trans isRef, sameDesc.trans isDesc, sameUsed ∘ isUsed⟩

/-- A reference has been given for a descriptor. -/
def Refers (s : Descriptors) (ref : ℕ) (desc : Descriptor) (used : Bool) : Prop :=
  ∃ d ∈ s.entries, d.ref = ref ∧ rank d.desc = rank desc ∧ (used = true → d.used = true)

theorem Refers.keep {s s' : Descriptors} {ref : ℕ} {desc : Descriptor} {used : Bool}
    (refers : Refers s ref desc used) (keeps : Keeps s s') : Refers s' ref desc used := by
  obtain ⟨d, member, isRef, isRank, isUsed⟩ := refers
  obtain ⟨d', isMember, sameRef, sameDesc, sameUsed⟩ := keeps d member
  exact ⟨d', isMember, sameRef.trans isRef, sameDesc ▸ isRank, sameUsed ∘ isUsed⟩

section Set

variable {s : Descriptors} {ref : ℕ} {used : Bool}

@[simp]
theorem Entry.set_ref (d : Entry) : (d.set ref used).ref = d.ref := by
  unfold Entry.set
  split_ifs <;> rfl

@[simp]
theorem Entry.set_desc (d : Entry) : (d.set ref used).desc = d.desc := by
  unfold Entry.set
  split_ifs <;> rfl

theorem Entry.set_used (d : Entry) :
    (d.set ref used).used = if d.ref = ref then used else d.used := by
  unfold Entry.set
  split_ifs <;> rfl

theorem Interned.set (interned : Interned s) :
    Interned { s with entries := s.entries.map (Entry.set ref used) } where
  sorted := by
    apply List.pairwise_map.mpr
    apply interned.sorted.imp
    intro first second before
    simpa only [Entry.set_desc] using before
  refs := by
    have same : (s.entries.map (Entry.set ref used)).map Entry.ref = s.entries.map Entry.ref := by
      rw [List.map_map]
      exact List.map_congr_left fun d _ => d.set_ref
    exact same ▸ interned.refs
  old d member := by
    obtain ⟨d, isMember, rfl⟩ := List.mem_map.mp member
    exact d.set_ref.symm ▸ interned.old d isMember
  good d member := by
    obtain ⟨d, isMember, rfl⟩ := List.mem_map.mp member
    exact d.set_desc.symm ▸ interned.good d isMember

theorem usedesc_keeps (s : Descriptors) (ref : ℕ) : Keeps s (usedesc s ref) := by
  intro d member
  refine ⟨d.set ref true, List.mem_map_of_mem member, d.set_ref, d.set_desc, fun isUsed => ?_⟩
  rw [d.set_used, isUsed, ite_self]

theorem usedesc_refers {desc : Descriptor} (refers : Refers s ref desc false) :
    Refers (usedesc s ref) ref desc true := by
  obtain ⟨d, member, isRef, isRank, -⟩ := refers
  refine ⟨d.set ref true, List.mem_map_of_mem member, d.set_ref.trans isRef, ?_, fun _ => ?_⟩
  · rwa [d.set_desc]
  · rw [d.set_used, if_pos isRef]

end Set

theorem enterdesc_spec {s : Descriptors} {desc : Descriptor} (interned : Interned s)
    (isGood : Good desc) :
    Interned (enterdesc s desc).1 ∧ Keeps s (enterdesc s desc).1 ∧
      Refers (enterdesc s desc).1 (enterdesc s desc).2 desc false := by
  have shape := @enter_perm _ _ _ (fun d : Entry => rank d.desc) ⟨s.next, false, desc⟩ s.entries
  unfold enterdesc
  rw [enterdescLoop_eq isGood interned.good]
  refine ⟨?_, ?_, ?_⟩
  · rcases shape with ⟨perm, -⟩ | ⟨same, -⟩
    · refine ⟨interned.sorted.enter, ?_, ?_, ?_⟩
      · apply (perm.map Entry.ref).nodup_iff.mpr
        apply List.Nodup.cons _ interned.refs
        intro member
        obtain ⟨d, isMember, isRef⟩ := List.mem_map.mp member
        exact absurd (interned.old d isMember) (isRef ▸ lt_irrefl _)
      · intro d member
        rcases List.mem_cons.mp (perm.mem_iff.mp member) with rfl | earlier
        · exact Nat.lt_succ_self s.next
        · exact (interned.old d earlier).trans (Nat.lt_succ_self s.next)
      · intro d member
        rcases List.mem_cons.mp (perm.mem_iff.mp member) with rfl | earlier
        · exact isGood
        · exact interned.good d earlier
    · refine ⟨interned.sorted.enter, ?_, ?_, ?_⟩
      · dsimp only
        rw [same]
        exact interned.refs
      · intro d member
        exact (interned.old d (same ▸ member)).trans (Nat.lt_succ_self s.next)
      · exact fun d member => interned.good d (same ▸ member)
  · exact fun d member => ⟨d, mem_enter_of_mem member, rfl, rfl, id⟩
  · exact ⟨_, enter_entry_mem, rfl, @enter_key _ _ _ (fun d : Entry => rank d.desc) _ _,
      fun absurdity => by cases absurdity⟩

theorem request_spec {s : Descriptors} (interned : Interned s) (r : Request) :
    Interned (request s r).1 ∧ Keeps s (request s r).1 ∧
      Refers (request s r).1 (request s r).2 r.wanted.desc r.uses := by
  obtain ⟨isInterned, keeps, refers⟩ := enterdesc_spec interned r.wanted.describes.good
  unfold request
  dsimp only
  split_ifs with uses
  · exact ⟨isInterned.set, keeps.trans (usedesc_keeps _ _), uses ▸ usedesc_refers refers⟩
  · exact ⟨isInterned, keeps, Bool.eq_false_of_not_eq_true uses ▸ refers⟩

/-- Whatever is asked for, in any order: every request is given a reference whose entry stays in
the list. -/
theorem session_spec (requests : List Request) {s : Descriptors} (interned : Interned s) :
    Interned (session requests s).1 ∧ Keeps s (session requests s).1 ∧
      List.Forall₂ (fun r ref => Refers (session requests s).1 ref r.wanted.desc r.uses) requests
        (session requests s).2 := by
  induction requests generalizing s with
  | nil => exact ⟨interned, Keeps.refl s, List.Forall₂.nil⟩
  | cons r requests ih =>
      obtain ⟨isInterned, keeps, refers⟩ := request_spec interned r
      obtain ⟨isLater, keepsLater, given⟩ := ih isInterned
      exact ⟨isLater, keeps.trans keepsLater, List.Forall₂.cons (refers.keep keepsLater) given⟩

/-- A new entry is not used. -/
theorem enterdesc_used {s : Descriptors} {desc : Descriptor} (interned : Interned s)
    (isGood : Good desc) {d : Entry} (member : d ∈ (enterdesc s desc).1.entries)
    (isUsed : d.used = true) : d ∈ s.entries := by
  unfold enterdesc at member
  rw [enterdescLoop_eq isGood interned.good] at member
  rcases @enter_perm _ _ _ (fun d : Entry => rank d.desc) ⟨s.next, false, desc⟩ s.entries with
    ⟨perm, -⟩ | ⟨same, -⟩
  · rcases List.mem_cons.mp (perm.mem_iff.mp member) with rfl | earlier
    · cases isUsed
    · exact earlier
  · exact same ▸ member

theorem request_used {s : Descriptors} (interned : Interned s) (r : Request) {d : Entry}
    (member : d ∈ (request s r).1.entries) (isUsed : d.used = true) :
    (∃ d' ∈ s.entries, d'.ref = d.ref ∧ d'.used = true) ∨
      d.ref = (request s r).2 ∧ r.uses = true := by
  have isGood := r.wanted.describes.good
  unfold request at member ⊢
  dsimp only at member ⊢
  split_ifs at member with uses
  · obtain ⟨d', isMember, rfl⟩ := List.mem_map.mp member
    rw [d'.set_used] at isUsed
    rw [d'.set_ref]
    split_ifs at isUsed with isRef
    · exact Or.inr ⟨isRef, uses⟩
    · exact Or.inl ⟨d', enterdesc_used interned isGood isMember isUsed, rfl, isUsed⟩
  · exact Or.inl ⟨d, enterdesc_used interned isGood member isUsed, rfl, isUsed⟩

/-- An entry is used when a request has used it. -/
theorem session_used (requests : List Request) {s : Descriptors} (interned : Interned s)
    {d : Entry} (member : d ∈ (session requests s).1.entries) (isUsed : d.used = true) :
    (∃ d' ∈ s.entries, d'.ref = d.ref ∧ d'.used = true) ∨
      ∃ r, (r, d.ref) ∈ requests.zip (session requests s).2 ∧ r.uses = true := by
  induction requests generalizing s with
  | nil => exact Or.inl ⟨d, member, rfl, isUsed⟩
  | cons r requests ih =>
      rcases ih (request_spec interned r).1 member with ⟨d', isMember, isRef, wasUsed⟩ | later
      · rcases request_used interned r isMember wasUsed with ⟨first, isFirst, sameRef, firstUsed⟩ |
          ⟨given, uses⟩
        · exact Or.inl ⟨first, isFirst, sameRef.trans isRef, firstUsed⟩
        · refine Or.inr ⟨r, ?_, uses⟩
          rw [← isRef, given]
          exact List.mem_cons_self
      · obtain ⟨r', isLater, uses⟩ := later
        exact Or.inr ⟨r', List.mem_cons_of_mem _ isLater, uses⟩

theorem interned_empty : Interned ⟨[], 0⟩ :=
  ⟨List.Pairwise.nil, List.nodup_nil, nofun, nofun⟩

theorem Describes.rank_eq {first second : Descriptor} {size : ℕ} {points : ℕ → Prop}
    (isFirst : Describes first size points) (isSecond : Describes second size points) :
    rank first = rank second :=
  rank_eq_iff.mpr (isFirst.unique isSecond)

/-- One entry has a reference. -/
theorem filter_ref {entries : List Entry} (refs : (entries.map Entry.ref).Nodup) {d : Entry}
    (member : d ∈ entries) : entries.filter (·.ref = d.ref) = [d] := by
  induction entries with
  | nil => cases member
  | cons first entries ih =>
      rw [List.map_cons, List.nodup_cons] at refs
      rcases List.mem_cons.mp member with rfl | later
      · rw [List.filter_cons_of_pos (by simp), List.filter_eq_nil_iff.mpr]
        intro other isOther same
        apply refs.1
        exact of_decide_eq_true same ▸ List.mem_map_of_mem isOther
      · have different : first.ref ≠ d.ref := fun same =>
          refs.1 (same ▸ List.mem_map_of_mem later)
        rw [List.filter_cons_of_neg (by simpa using different)]
        exact ih refs.2 later

/-- The table of a module: its first entry describes the module's data, the entries are different,
and the others are what has been used. -/
structure Resolved (s : Descriptors) (mod : Descriptor) (table : List Entry) : Prop where
  first : ∃ g rest, table = g :: rest ∧ rank g.desc = rank mod
  ranks : (table.map fun d => rank d.desc).Nodup
  refs : (table.map Entry.ref).Nodup
  used : ∀ {ref desc}, Refers s ref desc true → ∃ d ∈ table, d.ref = ref ∧ rank d.desc = rank desc
  needed : ∀ d ∈ table.tail, d ∈ s.entries ∧ d.used = true

/-- Of entries that are told apart by something, one and the others that are used. -/
theorem nodup_first {Value : Type*} {entries : List Entry} {g : Entry} (tells : Entry → Value)
    (nodup : (entries.map tells).Nodup) (member : g ∈ entries) (unused : g.used = false) :
    ((g :: entries.filter (·.used)).map tells).Nodup := by
  rw [List.map_cons, List.nodup_cons]
  constructor
  · intro again
    obtain ⟨d, isUsed, same⟩ := List.mem_map.mp again
    obtain ⟨isMember, isSet⟩ := List.mem_filter.mp isUsed
    rw [List.inj_on_of_nodup_map nodup isMember member same, unused] at isSet
    cases isSet
  · exact nodup.sublist (List.filter_sublist.map tells)

theorem resolvedesc_spec {s : Descriptors} {mod : Descriptor} (interned : Interned s)
    (isGood : Good mod) : Resolved s mod (resolvedesc s mod) := by
  obtain ⟨isInterned, keeps, refers⟩ := enterdesc_spec interned isGood
  have isSet := @Interned.set _ (enterdesc s mod).2 false isInterned
  obtain ⟨g, member, isRef, isRank, -⟩ := refers
  have isMember := List.mem_map.mpr ⟨g, member, @rfl _ (g.set (enterdesc s mod).2 false)⟩
  have setRef : (g.set (enterdesc s mod).2 false).ref = (enterdesc s mod).2 :=
    g.set_ref.trans isRef
  have unused : (g.set (enterdesc s mod).2 false).used = false := by
    rw [g.set_used, if_pos isRef]
  have isTable : resolvedesc s mod = g.set (enterdesc s mod).2 false ::
      ((enterdesc s mod).1.entries.map (Entry.set (enterdesc s mod).2 false)).filter (·.used) := by
    have single := filter_ref isSet.refs isMember
    rw [setRef] at single
    unfold resolvedesc
    dsimp only
    rw [single]
    rfl
  have ranks : (((enterdesc s mod).1.entries.map (Entry.set (enterdesc s mod).2 false)).map
      fun d => rank d.desc).Nodup :=
    List.pairwise_map.mpr (isSet.sorted.imp fun before => before.ne)
  refine ⟨⟨_, _, isTable, g.set_desc.symm ▸ isRank⟩, ?_, ?_, ?_, ?_⟩
  · exact isTable ▸ nodup_first _ ranks isMember unused
  · exact isTable ▸ nodup_first _ isSet.refs isMember unused
  · rintro ref desc ⟨d, isEntry, rfl, sameRank, isUsed⟩
    obtain ⟨d', isLater, sameRef, sameDesc, staysUsed⟩ := keeps d isEntry
    rw [isTable]
    by_cases isFirst : d'.ref = (enterdesc s mod).2
    · have same : d' = g :=
        List.inj_on_of_nodup_map isInterned.refs isLater member (isFirst.trans isRef.symm)
      refine ⟨_, List.mem_cons_self, setRef.trans (isFirst.symm.trans sameRef), ?_⟩
      rw [g.set_desc, ← same, sameDesc, sameRank]
    · have kept : d'.set (enterdesc s mod).2 false = d' := if_neg isFirst
      refine ⟨d', List.mem_cons_of_mem _ (List.mem_filter.mpr ⟨?_, ?_⟩), sameRef, ?_⟩
      · exact List.mem_map.mpr ⟨d', isLater, kept⟩
      · exact staysUsed (isUsed rfl)
      · rw [sameDesc, sameRank]
  · intro d isLater
    rw [isTable, List.tail_cons] at isLater
    obtain ⟨isEntry, isUsed⟩ := List.mem_filter.mp isLater
    obtain ⟨d', isMember, rfl⟩ := List.mem_map.mp isEntry
    have isOther : d'.ref ≠ (enterdesc s mod).2 := by
      intro isFirst
      rw [d'.set_used, if_pos isFirst] at isUsed
      cases isUsed
    have kept : d'.set (enterdesc s mod).2 false = d' := if_neg isOther
    rw [kept] at isUsed ⊢
    exact ⟨enterdesc_used interned isGood isMember isUsed, isUsed⟩

def Entry.written (d : Entry) : ModuleWriter.Desc where
  size := BitVec.ofNat 32 d.desc.size
  map := d.desc.map.take d.desc.nmap

/-- The table of a module for which descriptors have been asked for. -/
def compiled (requests : List Request) (mod : Wanted) : List Entry :=
  resolvedesc (session requests ⟨[], 0⟩).1 mod.desc

/-- The machine goes to exactly the pointers of the values that a descriptor was wanted for. -/
structure ReadFor (wanted : Wanted) (type : DataSection.TypeDescriptor) : Prop where
  size : type.sizeInBytes = BitVec.ofNat 32 wanted.size
  fields : ∀ memory field,
    field ∈ enumPointerFields ⟨type.sizeInBytes.toInt, type.pointerMap⟩ memory ↔
      wanted.points (iby2wd * field) ∧ memory field ≠ PointerMaps.nil

theorem readFor_of_rank {wanted : Wanted} {d : Entry} (same : rank d.desc = rank wanted.desc) :
    ReadFor wanted d.written.read := by
  obtain ⟨isSize, -, isMap⟩ := rank_eq_iff.mp same
  constructor
  · exact congrArg (BitVec.ofNat 32) (isSize.trans wanted.describes.isSize)
  · intro memory field
    rw [enumPointerFields_eq, mem_pointerWords, ← wanted.describes.bits, ← isMap]
    rfl

/-- Values of one size with the same pointers. -/
def SameValues (first second : Wanted) : Prop :=
  first.size = second.size ∧ ∀ place, first.points place ↔ second.points place

theorem rank_eq_iff_sameValues (first second : Wanted) :
    rank first.desc = rank second.desc ↔ SameValues first second := by
  constructor
  · intro same
    obtain ⟨isSize, -, isMap⟩ := rank_eq_iff.mp same
    refine ⟨?_, fun place => ?_⟩
    · rw [← first.describes.isSize, ← second.describes.isSize, isSize]
    · by_cases isWord : iby2wd ∣ place
      · obtain ⟨word, rfl⟩ := isWord
        rw [← first.describes.bits, ← second.describes.bits, isMap]
      · exact iff_of_false (fun points => isWord (first.describes.words _ points).1)
          fun points => isWord (second.describes.words _ points).1
  · rintro ⟨isSize, same⟩
    exact Describes.rank_eq first.describes
      (isSize.symm ▸ second.describes.congr fun place => (same place).symm)

/-- The table that the machine has, with a descriptor for each kind of values that is used and
for no other. -/
structure ReadTable (requests : List Request) (mod : Wanted)
    (types : List DataSection.TypeDescriptor) : Prop where
  numbered : types.length = (compiled requests mod).length
  first : ∃ type, types[0]? = some type ∧ ReadFor mod type
  used : List.Forall₂ (fun r ref => r.uses = true → ∃ id : ℕ,
      ((compiled requests mod).map Entry.ref)[id]? = some ref ∧
        ∃ type, types[id]? = some type ∧ ReadFor r.wanted type)
    requests (session requests ⟨[], 0⟩).2
  needed : ∀ ref ∈ ((compiled requests mod).map Entry.ref).tail, ∃ r : Request,
    (r, ref) ∈ requests.zip (session requests ⟨[], 0⟩).2 ∧ r.uses = true
  once : ((compiled requests mod).map Entry.ref).Nodup
  same : ∀ (r r' : Request) (ref ref' : ℕ),
    (r, ref) ∈ requests.zip (session requests ⟨[], 0⟩).2 →
    (r', ref') ∈ requests.zip (session requests ⟨[], 0⟩).2 →
      (ref = ref' ↔ SameValues r.wanted r'.wanted)

/-- Whatever the compiler asks descriptors for, in any order, the machine reads a table by which
it goes to exactly the pointers of what they were asked for. -/
theorem descriptors_reach_machine (requests : List Request) (mod : Wanted)
    {bytes : List UInt8}
    (written : ModuleWriter.disdesc ((compiled requests mod).map Entry.written) = some bytes)
    (small : (compiled requests mod).length < 2 ^ 31)
    (fits : ∀ d ∈ compiled requests mod, d.written.map.length ≤ ModuleWriter.maxMap) :
    ∃ types, ReadTable requests mod types ∧
      ModuleWriter.Gives (ModuleReader.typeLoop (compiled requests mod).length
        (List.replicate (compiled requests mod).length none)) bytes (types.map some) := by
  obtain ⟨interned, -, given⟩ := session_spec requests interned_empty
  have resolved := resolvedesc_spec interned mod.describes.good
  refine ⟨(compiled requests mod).map fun d => d.written.read,
    ⟨List.length_map _, ?_, ?_, ?_, resolved.refs, ?_⟩, ?_⟩
  · obtain ⟨g, rest, isTable, isRank⟩ := resolved.first
    refine ⟨_, ?_, readFor_of_rank isRank⟩
    unfold compiled
    rw [isTable]
    rfl
  · apply given.imp
    intro r ref refers uses
    obtain ⟨d, member, isRef, isRank⟩ := resolved.used (uses ▸ refers)
    obtain ⟨id, isEntry⟩ := List.mem_iff_getElem?.mp member
    have isId : (compiled requests mod)[id]? = some d := isEntry
    refine ⟨id, ?_, d.written.read, ?_, readFor_of_rank isRank⟩
    · rw [List.getElem?_map, isId, ← isRef]
      rfl
    · rw [List.getElem?_map, isId]
      rfl
  · intro ref isLater
    rw [← List.map_tail] at isLater
    obtain ⟨d, isEntry, rfl⟩ := List.mem_map.mp isLater
    obtain ⟨member, isUsed⟩ := resolved.needed d isEntry
    rcases session_used requests interned_empty member isUsed with ⟨d', isOld, -⟩ | isAsked
    · cases isOld
    · exact isAsked
  · intro r r' ref ref' isFirst isSecond
    obtain ⟨d, member, rfl, isRank, -⟩ := (List.forall₂_iff_zip.mp given).2 isFirst
    obtain ⟨d', isMember, rfl, sameRank, -⟩ := (List.forall₂_iff_zip.mp given).2 isSecond
    rw [← rank_eq_iff_sameValues, ← isRank, ← sameRank]
    constructor
    · intro sameRef
      rw [List.inj_on_of_nodup_map interned.refs member isMember sameRef]
    · intro equal
      rw [interned.sorted.eq_of_key member isMember equal]
  · intro rest
    have reads := @ModuleWriter.reads_typeLoop bytes
      ((compiled requests mod).map Entry.written) [] (by simpa using small) written
    obtain ⟨value, isValue, rfl⟩ := reads.back (by simpa using fits) rest
    simpa [List.map_map, Function.comp_def] using isValue

/-- A tuple of a string and an integer. -/
def stringPair : Ty :=
  .record .ttuple (.cons .dfield false (.plain .tstring) (.cons .dfield false (.plain .tint) .nil))

theorem stringPair_proper : stringPair.Proper := by
  simp [stringPair, Ty.Proper, Ids.Proper, Ids.AreMembers]

def oneList : Ty :=
  .record .ttuple (.cons .dfield false (.plain .tlist) .nil)

theorem oneList_proper : oneList.Proper := by
  simp [oneList, Ty.Proper, Ids.Proper, Ids.AreMembers]

/-- What a module asks for that has a string, allocates a pair twice and only compares a list. -/
def someRequests : List Request :=
  [⟨Wanted.ofType false stringPair stringPair_proper (by decide), true⟩,
    ⟨Wanted.ofType false oneList oneList_proper (by decide), false⟩,
    ⟨Wanted.ofType false stringPair stringPair_proper (by decide), true⟩]

/-- The data of a module that has one int. -/
def intData : Wanted :=
  Wanted.ofType false (.plain .tint) trivial (by decide)

theorem stringPair_reaches_machine : ∃ types, ReadTable someRequests intData types ∧
    ModuleWriter.Gives (ModuleReader.typeLoop 2 [none, none])
      [0, 4, 0, 1, 8, 1, 0x80] (types.map some) :=
  descriptors_reach_machine someRequests intData
    (by decide +kernel) (by decide +kernel) (by decide +kernel)

end Disvm.DescriptorTable
