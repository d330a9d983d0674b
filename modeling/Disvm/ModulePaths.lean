import Mathlib.Data.List.Basic
import Mathlib.Data.List.TakeWhile

/-!
# Paths of modules

A path is resolved by asking the resolvers in order.  For a path of the Inferno file system the
last name of the path is tried first, and what a resolver throws is then ignored.
-/

namespace Disvm.ModulePaths

variable {Module Failure : Type}

/-- What a resolver does for a name. -/
inductive Attempt (Module Failure : Type) where
  | found (module : Module)
  | nothing
  | throws (failure : Failure)

abbrev Resolver (Module Failure : Type) := List Char → Attempt Module Failure

/-- A resolver, by its index, is asked for a name. -/
structure Ask where
  resolver : ℕ
  name : List Char
  deriving DecidableEq, Repr

inductive Thrown (Failure : Type) where
  | resolver (failure : Failure)
  | unresolved (path : List Char)

/-- The resolvers asked in order, and the result. -/
structure Resolution (Module Failure : Type) where
  asks : List Ask
  result : Except (Thrown Failure) Module

def infernoRootPath : List Char :=
  ['/', 'd', 'i', 's', '/']

/-- `sizeof(inferno_root_path)`, the size of a pointer and thus of a word. -/
def sizeofInfernoRootPath : ℕ := 4

/-- `strncmp` finds no difference; a string ends with its terminator. -/
def SameStart (s1 s2 : List Char) (count : ℕ) : Prop :=
  (s1.map some ++ [none]).take count = (s2.map some ++ [none]).take count

instance (s1 s2 : List Char) (count : ℕ) : Decidable (SameStart s1 s2 count) :=
  inferInstanceAs (Decidable (_ = _))

/-- What comes after the last `/`. -/
def moduleName (path : List Char) : List Char :=
  (path.reverse.takeWhile (· ≠ '/')).reverse

/-- The first loop, from a resolver on. -/
def tryName (name : List Char) :
    (index : ℕ) → List (Resolver Module Failure) → List Ask × Option Module
  | _, [] => ([], none)
  | index, r :: resolvers =>
      match r name with
      | .found module => ([⟨index, name⟩], some module)
      | .nothing | .throws _ =>
          let later := tryName name (index + 1) resolvers
          (⟨index, name⟩ :: later.1, later.2)

/-- The second loop, from a resolver on, and what is thrown after it. -/
def tryPath (path : List Char) :
    (index : ℕ) → List (Resolver Module Failure) → Resolution Module Failure
  | _, [] => ⟨[], .error (.unresolved path)⟩
  | index, r :: resolvers =>
      match r path with
      | .found module => ⟨[⟨index, path⟩], .ok module⟩
      | .throws failure => ⟨[⟨index, path⟩], .error (.resolver failure)⟩
      | .nothing =>
          let later := tryPath path (index + 1) resolvers
          ⟨⟨index, path⟩ :: later.asks, later.result⟩

/-- `resolve_module_from_path`. -/
def resolveModuleFromPath (path : List Char) (resolvers : List (Resolver Module Failure)) :
    Resolution Module Failure :=
  let named :=
    if SameStart path infernoRootPath sizeofInfernoRootPath ∧ moduleName path ≠ [] then
      tryName (moduleName path) 0 resolvers
    else ([], none)
  match named.2 with
  | some module => ⟨named.1, .ok module⟩
  | none =>
      let later := tryPath path 0 resolvers
      ⟨named.1 ++ later.asks, later.result⟩

/-- Some resolvers from an index on are asked for the same name. -/
def asksFrom (name : List Char) (start count : ℕ) : List Ask :=
  (List.range' start count).map (⟨·, name⟩)

/-- Resolvers are asked for a name in order, up to the first one that stops it. -/
inductive AskedUntil (stops : Attempt Module Failure → Prop) (name : List Char) (start : ℕ) :
    List (Resolver Module Failure) → List Ask → Option (Attempt Module Failure) → Prop
  | through {resolvers : List (Resolver Module Failure)}
      (passed : ∀ resolver ∈ resolvers, ¬ stops (resolver name)) :
      AskedUntil stops name start resolvers (asksFrom name start resolvers.length) none
  | stopped (before after : List (Resolver Module Failure)) {resolver : Resolver Module Failure}
      (passed : ∀ earlier ∈ before, ¬ stops (earlier name)) (stop : stops (resolver name)) :
      AskedUntil stops name start (before ++ resolver :: after)
        (asksFrom name start (before.length + 1)) (some (resolver name))

/-- The search for the last name goes on after an exception, the search for the path does
not. -/
def IsFound : Attempt Module Failure → Prop
  | .found _ => True
  | .nothing | .throws _ => False

def Ends : Attempt Module Failure → Prop
  | .found _ | .throws _ => True
  | .nothing => False

def resultOf (path : List Char) :
    Option (Attempt Module Failure) → Except (Thrown Failure) Module
  | some (.found module) => .ok module
  | some (.throws failure) => .error (.resolver failure)
  | some .nothing | none => .error (.unresolved path)

/-- The path begins with `/dis/` and there is something after its last `/`. -/
def IsInferno (path : List Char) : Prop :=
  infernoRootPath <+: path ∧ moduleName path ≠ []

/-- The last name of an Inferno path is resolved, or else the path. -/
inductive ResolvedInOrder (path : List Char) (resolvers : List (Resolver Module Failure)) :
    Resolution Module Failure → Prop
  | name {asks : List Ask} {module : Module} (inferno : IsInferno path)
      (asked : AskedUntil IsFound (moduleName path) 0 resolvers asks (some (.found module))) :
      ResolvedInOrder path resolvers ⟨asks, .ok module⟩
  | path {named asks : List Ask} {last : Option (Attempt Module Failure)}
      (inferno : IsInferno path → AskedUntil IsFound (moduleName path) 0 resolvers named none)
      (other : ¬ IsInferno path → named = [])
      (asked : AskedUntil Ends path 0 resolvers asks last) :
      ResolvedInOrder path resolvers ⟨named ++ asks, resultOf path last⟩

section Loops

variable {stops : Attempt Module Failure → Prop} {name path : List Char} {start : ℕ}
  {resolvers : List (Resolver Module Failure)} {asks : List Ask}
  {last : Option (Attempt Module Failure)}

theorem AskedUntil.next {resolver : Resolver Module Failure} (passes : ¬ stops (resolver name))
    (asked : AskedUntil stops name (start + 1) resolvers asks last) :
    AskedUntil stops name start (resolver :: resolvers) (⟨start, name⟩ :: asks) last := by
  cases asked with
  | through passed => exact .through (List.forall_mem_cons.mpr ⟨passes, passed⟩)
  | stopped before after passed stop =>
      exact .stopped (resolver :: before) after (List.forall_mem_cons.mpr ⟨passes, passed⟩) stop

theorem AskedUntil.here {resolver : Resolver Module Failure} (stop : stops (resolver name)) :
    AskedUntil stops name start (resolver :: resolvers) [⟨start, name⟩] (some (resolver name)) :=
  .stopped [] resolvers (fun _ member => nomatch member) stop

/-- The first resolver is asked first. -/
theorem AskedUntil.head {resolver : Resolver Module Failure}
    (asked : AskedUntil stops name start (resolver :: resolvers) asks last) :
    asks.head? = some ⟨start, name⟩ := by
  generalize isResolvers : resolver :: resolvers = all at asked
  cases asked with
  | through _ => rw [← isResolvers]; rfl
  | stopped _ _ _ _ => rfl

theorem tryName_asked (name : List Char) (start : ℕ)
    (resolvers : List (Resolver Module Failure)) :
    AskedUntil IsFound name start resolvers (tryName name start resolvers).1
      ((tryName name start resolvers).2.map .found) := by
  induction resolvers generalizing start with
  | nil => exact .through fun _ member => nomatch member
  | cons r resolvers ih =>
      rw [tryName]
      cases attempt : r name with
      | found module =>
          have stop : IsFound (r name) := attempt ▸ trivial
          have asked : AskedUntil IsFound name start (r :: resolvers) [⟨start, name⟩]
              (some (r name)) := .here stop
          rw [attempt] at asked
          exact asked
      | nothing => exact (ih (start + 1)).next (attempt ▸ id)
      | throws failure => exact (ih (start + 1)).next (attempt ▸ id)

theorem tryPath_asked (path : List Char) (start : ℕ)
    (resolvers : List (Resolver Module Failure)) :
    ∃ last, AskedUntil Ends path start resolvers (tryPath path start resolvers).asks last ∧
      (tryPath path start resolvers).result = resultOf path last := by
  induction resolvers generalizing start with
  | nil =>
      have asked : AskedUntil Ends path start ([] : List (Resolver Module Failure)) [] none :=
        .through fun _ member => nomatch member
      exact ⟨none, asked, rfl⟩
  | cons r resolvers ih =>
      rw [tryPath]
      cases attempt : r path with
      | found module =>
          have stop : Ends (r path) := attempt ▸ trivial
          exact ⟨some (r path), .here stop, by rw [attempt]; rfl⟩
      | throws failure =>
          have stop : Ends (r path) := attempt ▸ trivial
          exact ⟨some (r path), .here stop, by rw [attempt]; rfl⟩
      | nothing =>
          obtain ⟨last, asked, isResult⟩ := ih (start + 1)
          exact ⟨last, asked.next (attempt ▸ id), isResult⟩

end Loops

section Choice

variable {path : List Char}

theorem slash_not_mem_moduleName (path : List Char) : '/' ∉ moduleName path := by
  intro member
  have kept := List.mem_takeWhile_imp (List.mem_reverse.mp member)
  simp at kept

/-- The comparison sees four characters. -/
theorem sameStart_iff :
    SameStart path infernoRootPath sizeofInfernoRootPath ↔ ['/', 'd', 'i', 's'] <+: path := by
  unfold SameStart infernoRootPath sizeofInfernoRootPath
  rcases path with _ | ⟨first, _ | ⟨second, _ | ⟨third, _ | ⟨fourth, rest⟩⟩⟩⟩ <;>
    simp [List.cons_prefix_cons, eq_comm (a := '/'), eq_comm (a := 'd'), eq_comm (a := 'i'),
      eq_comm (a := 's')]

theorem moduleName_ne (begins : ['/', 'd', 'i', 's'] <+: path) : moduleName path ≠ path := by
  intro same
  have member : '/' ∈ path := begins.subset List.mem_cons_self
  rw [← same] at member
  exact slash_not_mem_moduleName path member

theorem begins_of_isInferno (inferno : IsInferno path) : ['/', 'd', 'i', 's'] <+: path :=
  List.IsPrefix.trans ⟨['/'], rfl⟩ inferno.1

variable {resolvers : List (Resolver Module Failure)}

theorem resolved_inferno (inferno : IsInferno path) :
    ResolvedInOrder path resolvers (resolveModuleFromPath path resolvers) := by
  have asked := tryName_asked (moduleName path) 0 resolvers
  unfold resolveModuleFromPath
  rw [if_pos ⟨sameStart_iff.mpr (begins_of_isInferno inferno), inferno.2⟩]
  dsimp only
  cases named : (tryName (moduleName path) 0 resolvers).2 with
  | some module =>
      rw [named] at asked
      exact .name inferno asked
  | none =>
      rw [named] at asked
      obtain ⟨last, askedPath, isResult⟩ := tryPath_asked path 0 resolvers
      rw [isResult]
      exact .path (fun _ => asked) (fun other => absurd inferno other) askedPath

theorem resolved_other (other : ¬ IsInferno path)
    (unnamed : ¬ (['/', 'd', 'i', 's'] <+: path ∧ moduleName path ≠ [])) :
    ResolvedInOrder path resolvers (resolveModuleFromPath path resolvers) := by
  obtain ⟨last, asked, isResult⟩ := tryPath_asked path 0 resolvers
  unfold resolveModuleFromPath
  rw [if_neg fun named => unnamed ⟨sameStart_iff.mp named.1, named.2⟩]
  dsimp only
  rw [isResult]
  exact .path (fun inferno => absurd inferno other) (fun _ => rfl) asked

/-- The last name is asked for first. -/
theorem head_resolved (first : Resolver Module Failure)
    (named : ['/', 'd', 'i', 's'] <+: path ∧ moduleName path ≠ []) :
    (resolveModuleFromPath path (first :: resolvers)).asks.head? =
      some ⟨0, moduleName path⟩ := by
  have isHead := (tryName_asked (moduleName path) 0 (first :: resolvers)).head
  unfold resolveModuleFromPath
  rw [if_pos ⟨sameStart_iff.mpr named.1, named.2⟩]
  dsimp only
  cases (tryName (moduleName path) 0 (first :: resolvers)).2 with
  | some module => exact isHead
  | none => rw [List.head?_append, isHead]; rfl

/-- The path is asked for first when it is not an Inferno path. -/
theorem ResolvedInOrder.head {first : Resolver Module Failure}
    {resolution : Resolution Module Failure} (other : ¬ IsInferno path)
    (resolved : ResolvedInOrder path (first :: resolvers) resolution) :
    resolution.asks.head? = some ⟨0, path⟩ := by
  cases resolved with
  | name inferno _ => exact absurd inferno other
  | path _ unnamed asked =>
      rw [unnamed other]
      exact asked.head

end Choice

/-- A path that begins with `/dis` and has another fifth character is taken for one of the
Inferno file system. -/
theorem resolved_in_order_iff (path : List Char) (first : Resolver Module Failure)
    (resolvers : List (Resolver Module Failure)) :
    ResolvedInOrder path (first :: resolvers)
        (resolveModuleFromPath path (first :: resolvers)) ↔
      (['/', 'd', 'i', 's'] <+: path → moduleName path ≠ [] → infernoRootPath <+: path) := by
  constructor
  · intro resolved begins nonempty
    by_contra notRoot
    have isPath := resolved.head fun inferno => notRoot inferno.1
    rw [head_resolved first ⟨begins, nonempty⟩] at isPath
    exact moduleName_ne begins (congrArg Ask.name (Option.some.inj isPath))
  · intro agrees
    by_cases inferno : IsInferno path
    · exact resolved_inferno inferno
    · exact resolved_other inferno fun named =>
        inferno ⟨agrees named.1 named.2, named.2⟩

/-- `/disk/x` is resolved to `x` by a resolver that has both. -/
theorem disk_not_in_order :
    ¬ ResolvedInOrder ['/', 'd', 'i', 's', 'k', '/', 'x']
      [(fun name => .found name.length : Resolver ℕ String)]
      (resolveModuleFromPath ['/', 'd', 'i', 's', 'k', '/', 'x']
        [(fun name => .found name.length : Resolver ℕ String)]) := by
  intro resolved
  have notInferno : ¬ IsInferno ['/', 'd', 'i', 's', 'k', '/', 'x'] := by
    rintro ⟨root, -⟩
    exact absurd root (by decide)
  exact absurd (resolved.head notInferno) (by decide)

end Disvm.ModulePaths
