import Disvm.StringRoundTrip
import Disvm.TransitionRuns

/-!
# The registry of modules

`load_module` keeps a list of the paths that it has loaded, with the identifier of
each and a weak reference to its module.  A path that is in the list is resolved
again when its module is gone; another path is resolved, stored as a string and
put in front of the list.
-/

namespace Disvm.ModuleRegistry

open Strings

inductive LoadException where
  | invalidModulePath
  | unresolved
  | unknownBuiltin
  | path (exception : Strings.VmException)
  | callback
  deriving DecidableEq, Repr

/-- `loaded_vm_module_t`.  `origin` is the text of its string, if that is defined. -/
structure LoadedModule where
  vmId : ℕ
  origin : Option (List UInt8)
  module : ℕ
  deriving DecidableEq, Repr

/-- A module that the process keeps. -/
structure BuiltinModule where
  name : List UInt8
  module : ℕ
  deriving DecidableEq, Repr

/-- Modules are known by their numbers; a module is alive while something refers to
it. -/
structure Vm where
  builtinModules : List BuiltinModule
  modules : List LoadedModule
  vmIdOf : ℕ → ℕ
  alive : ℕ → Bool
  limit : ℕ

/-- `$`. -/
def builtinModulePrefixChar : UInt8 := 0x24

/-- The text of the string that is made of a path, which is not defined after a write
past the storage of the string or without a NUL inside its buffer. -/
def originOf (path : List UInt8) : Except Strings.VmException (Option (List UInt8)) :=
  match VmString.ofUtf8 path with
  | .error exception => .error exception
  | .ok string =>
      let (kept, encoded) := string.str
      if string.overrun = false ∧ kept.NulInside encoded then
        .ok (some ((kept.encodedText encoded).takeWhile (· ≠ 0)))
      else .ok none

/-- The first entry of a path refers to another module. -/
def setModule (path : List UInt8) (module : ℕ) : List LoadedModule → List LoadedModule
  | [] => []
  | entry :: rest =>
      if entry.origin = some path then { entry with module := module } :: rest
      else entry :: setModule path module rest

namespace Vm

def findModule (vm : Vm) (path : List UInt8) : Option LoadedModule :=
  vm.modules.find? fun entry => entry.origin = some path

def getBuiltinModule (vm : Vm) (name : List UInt8) : Except LoadException ℕ :=
  match vm.builtinModules.find? fun builtin => builtin.name = name with
  | some builtin => .ok builtin.module
  | none => .error .unknownBuiltin

/-- The module of a path that is not in the list. -/
def resolveNew (vm : Vm) (path : List UInt8) (resolved : Bool) : Except LoadException ℕ :=
  if path.head? = some builtinModulePrefixChar then vm.getBuiltinModule path
  else if resolved then .ok vm.limit
  else .error .unresolved

/-- A module that was resolved again gets the identifier of its path. -/
def reload (vm : Vm) (path : List UInt8) (vmId : ℕ) : Vm :=
  { vm with
    modules := setModule path vm.limit vm.modules
    vmIdOf := Function.update vm.vmIdOf vm.limit vmId
    alive := Function.update vm.alive vm.limit true
    limit := vm.limit + 1 }

def vmIdNext (vm : Vm) : ℕ :=
  match vm.modules with
  | [] => 1
  | front :: _ => front.vmId + 1

def register (vm : Vm) (module : ℕ) (origin : Option (List UInt8)) : Vm :=
  { vm with
    modules := { vmId := vm.vmIdNext, origin := origin, module := module } :: vm.modules
    vmIdOf := Function.update vm.vmIdOf module vm.vmIdNext
    alive := Function.update vm.alive module true
    limit := max vm.limit (module + 1) }

/-- `load_module`, by whether the resolvers resolve the path and whether a tool throws
when it is told of a new module. -/
def loadModule (vm : Vm) (path : Option (List UInt8)) (resolved throwing : Bool) :
    Vm × Except LoadException ℕ :=
  match path with
  | none => (vm, .error .invalidModulePath)
  | some path =>
      match vm.findModule path with
      | some entry =>
          if vm.alive entry.module then (vm, .ok entry.module)
          else if resolved then (vm.reload path entry.vmId, .ok vm.limit)
          else (vm, .error .unresolved)
      | none =>
          match vm.resolveNew path resolved with
          | .error exception => (vm, .error exception)
          | .ok module =>
              match originOf path with
              | .error exception => (vm, .error (.path exception))
              | .ok origin =>
                  if throwing then (vm.register module origin, .error .callback)
                  else (vm.register module origin, .ok module)

inductive Action where
  | loadModule (path : Option (List UInt8)) (resolved throwing : Bool)
  | expire (module : ℕ)
  | loadElsewhere (builtin : BuiltinModule) (vmId : ℕ)
  deriving DecidableEq, Repr

/-- Modules that are not built in expire; another virtual machine that loads a
built-in module gives it an identifier of its own. -/
def step (vm : Vm) : Action → Vm
  | .loadModule path resolved throwing => (vm.loadModule path resolved throwing).1
  | .expire module =>
      if ∃ builtin ∈ vm.builtinModules, builtin.module = module then vm
      else { vm with alive := Function.update vm.alive module false }
  | .loadElsewhere builtin vmId =>
      if builtin ∈ vm.builtinModules then
        { vm with vmIdOf := Function.update vm.vmIdOf builtin.module vmId }
      else vm

/-- A process with built-in modules, before the first load. -/
def start (names : List (List UInt8)) (vmIdOf : ℕ → ℕ) : Vm where
  builtinModules := names.zipIdx.map fun (name, module) => { name := name, module := module }
  modules := []
  vmIdOf := vmIdOf
  alive module := decide (module < names.length)
  limit := names.length

/-- Identifiers and paths occur once, and modules that are alive carry the identifier
of their path. -/
structure Consistent (vm : Vm) : Prop where
  ids : (vm.modules.map LoadedModule.vmId).Nodup
  origins : (vm.modules.map LoadedModule.origin).Nodup
  carried : ∀ entry ∈ vm.modules, vm.alive entry.module = true →
    vm.vmIdOf entry.module = entry.vmId

/-- What a load does to the list and gives back. -/
structure Loads (vm after : Vm) (path : Option (List UInt8)) (resolved : Bool)
    (result : Except LoadException ℕ) : Prop where
  thrown : ∀ exception, result = .error exception → after.modules = vm.modules
  registered : ∀ module, result = .ok module → ∃ entry ∈ after.modules,
    entry.origin = path ∧ entry.module = module ∧ after.alive module = true ∧
      after.vmIdOf module = entry.vmId
  kept : ∀ entry ∈ vm.modules, ∃ later ∈ after.modules,
    later.origin = entry.origin ∧ later.vmId = entry.vmId
  same : ∀ entry ∈ vm.modules, entry.origin = path → path ≠ none →
    vm.alive entry.module = true → result = .ok entry.module
  reloaded : ∀ entry ∈ vm.modules, entry.origin = path → path ≠ none →
    vm.alive entry.module = false → resolved = true → ∃ module, result = .ok module

/-- A step keeps the registry consistent, and a load does what it has to. -/
structure Keeps (vm : Vm) (action : Action) : Prop where
  consistent : Consistent (vm.step action)
  loads : ∀ path resolved throwing, action = .loadModule path resolved throwing →
    Loads vm (vm.step action) path resolved (vm.loadModule path resolved throwing).2

/-- A path that is registered is read back from its string as it is, and no tool
throws on it; another virtual machine does not change an identifier of the
registry. -/
def Permitted (vm : Vm) : Action → Prop
  | .loadModule path resolved throwing => ∀ path' ∈ path, vm.findModule path' = none →
      ∀ module origin, vm.resolveNew path' resolved = .ok module → originOf path' = .ok origin →
        throwing = false ∧ origin = some path'
  | .expire _ => True
  | .loadElsewhere builtin vmId => builtin ∈ vm.builtinModules →
      ∀ entry ∈ vm.modules, entry.module = builtin.module → entry.vmId = vmId

/-- What the steps keep besides. -/
structure Sound (vm : Vm) : Prop extends Consistent vm where
  descending : (vm.modules.map LoadedModule.vmId).Pairwise (· > ·)
  below : ∀ entry ∈ vm.modules, entry.module < vm.limit
  builtinBelow : ∀ builtin ∈ vm.builtinModules, builtin.module < vm.limit
  builtinAlive : ∀ builtin ∈ vm.builtinModules, vm.alive builtin.module = true
  builtinModules : (vm.builtinModules.map BuiltinModule.module).Nodup
  named : ∀ entry ∈ vm.modules, ∀ builtin ∈ vm.builtinModules, entry.module = builtin.module →
    entry.origin = some builtin.name

end Vm

section Entries

variable {path : List UInt8} {module : ℕ} {modules : List LoadedModule} {entry : LoadedModule}

theorem map_vmId_setModule (path : List UInt8) (module : ℕ) (modules : List LoadedModule) :
    (setModule path module modules).map LoadedModule.vmId = modules.map LoadedModule.vmId := by
  induction modules with
  | nil => rfl
  | cons entry modules ih =>
      unfold setModule
      split_ifs
      · rfl
      · rw [List.map_cons, ih, List.map_cons]

theorem map_origin_setModule (path : List UInt8) (module : ℕ) (modules : List LoadedModule) :
    (setModule path module modules).map LoadedModule.origin =
      modules.map LoadedModule.origin := by
  induction modules with
  | nil => rfl
  | cons entry modules ih =>
      unfold setModule
      split_ifs
      · rfl
      · rw [List.map_cons, ih, List.map_cons]

/-- The entries of other paths stay. -/
theorem mem_setModule_of_ne (member : entry ∈ modules) (other : entry.origin ≠ some path) :
    entry ∈ setModule path module modules := by
  induction modules with
  | nil => cases member
  | cons first modules ih =>
      unfold setModule
      rcases List.mem_cons.mp member with rfl | inRest
      · rw [if_neg other]
        exact List.mem_cons_self
      · split_ifs
        · exact List.mem_cons_of_mem _ inRest
        · exact List.mem_cons_of_mem _ (ih inRest)

theorem mem_setModule_self (origins : (modules.map LoadedModule.origin).Nodup)
    (member : entry ∈ modules) (here : entry.origin = some path) :
    { entry with module := module } ∈ setModule path module modules := by
  induction modules with
  | nil => cases member
  | cons first modules ih =>
      rw [List.map_cons, List.nodup_cons] at origins
      unfold setModule
      rcases List.mem_cons.mp member with rfl | inRest
      · rw [if_pos here]
        exact List.mem_cons_self
      · rw [if_neg]
        · exact List.mem_cons_of_mem _ (ih origins.2 inRest)
        · intro same
          exact origins.1 (same.trans here.symm ▸ List.mem_map_of_mem inRest)

theorem of_mem_setModule (origins : (modules.map LoadedModule.origin).Nodup)
    (member : entry ∈ setModule path module modules) :
    entry ∈ modules ∧ entry.origin ≠ some path ∨
      ∃ before ∈ modules, before.origin = some path ∧ entry = { before with module := module } := by
  induction modules with
  | nil => cases member
  | cons first modules ih =>
      rw [List.map_cons, List.nodup_cons] at origins
      unfold setModule at member
      split_ifs at member with here
      · rcases List.mem_cons.mp member with rfl | inRest
        · exact Or.inr ⟨first, List.mem_cons_self, here, rfl⟩
        · refine Or.inl ⟨List.mem_cons_of_mem _ inRest, fun same => ?_⟩
          exact origins.1 (here.trans same.symm ▸ List.mem_map_of_mem inRest)
      · rcases List.mem_cons.mp member with rfl | inRest
        · exact Or.inl ⟨List.mem_cons_self, here⟩
        · rcases ih origins.2 inRest with ⟨inModules, other⟩ | ⟨before, inModules, rest⟩
          · exact Or.inl ⟨List.mem_cons_of_mem _ inModules, other⟩
          · exact Or.inr ⟨before, List.mem_cons_of_mem _ inModules, rest⟩

end Entries

namespace Vm

section Steps

variable {vm : Vm} {path : List UInt8} {resolved throwing : Bool} {entry : LoadedModule}

theorem findModule_eq_some (found : vm.findModule path = some entry) :
    entry ∈ vm.modules ∧ entry.origin = some path :=
  ⟨List.mem_of_find?_eq_some found, by simpa using List.find?_some found⟩

theorem findModule_eq_none (notFound : vm.findModule path = none) {other : LoadedModule}
    (member : other ∈ vm.modules) : other.origin ≠ some path := by
  have isNot := List.find?_eq_none.mp notFound other member
  simpa using isNot

theorem Consistent.findModule (consistent : Consistent vm) (member : entry ∈ vm.modules)
    (here : entry.origin = some path) : vm.findModule path = some entry := by
  cases found : vm.findModule path with
  | none => exact absurd here (findModule_eq_none found member)
  | some other =>
      obtain ⟨inModules, isPath⟩ := findModule_eq_some found
      exact congrArg some (List.inj_on_of_nodup_map consistent.origins inModules member
        (isPath.trans here.symm))

theorem vmId_lt_next (descending : (vm.modules.map LoadedModule.vmId).Pairwise (· > ·))
    (member : entry ∈ vm.modules) : entry.vmId < vm.vmIdNext := by
  unfold vmIdNext
  cases isModules : vm.modules with
  | nil =>
      rw [isModules] at member
      cases member
  | cons front rest =>
      rw [isModules] at member descending
      rcases List.mem_cons.mp member with rfl | inRest
      · exact Nat.lt_succ_self _
      · rw [List.map_cons, List.pairwise_cons] at descending
        exact Nat.lt_succ_of_lt (descending.1 _ (List.mem_map_of_mem inRest))

theorem sound_reload (sound : Sound vm) (found : vm.findModule path = some entry) :
    Sound (vm.reload path entry.vmId) := by
  obtain ⟨inModules, here⟩ := findModule_eq_some found
  have cases : ∀ later ∈ (vm.reload path entry.vmId).modules,
      later ∈ vm.modules ∨ later = { entry with module := vm.limit } := by
    intro later member
    rcases of_mem_setModule sound.origins member with ⟨isOld, -⟩ | ⟨before, isOld, isPath, rfl⟩
    · exact Or.inl isOld
    · have same : before = entry := List.inj_on_of_nodup_map sound.origins isOld inModules
        (isPath.trans here.symm)
      exact Or.inr (by rw [same])
  have old : ∀ {module : ℕ}, module < vm.limit → module ≠ vm.limit := Nat.ne_of_lt
  constructor
  · constructor
    · show ((setModule path vm.limit vm.modules).map LoadedModule.vmId).Nodup
      rw [map_vmId_setModule]
      exact sound.ids
    · show ((setModule path vm.limit vm.modules).map LoadedModule.origin).Nodup
      rw [map_origin_setModule]
      exact sound.origins
    · intro later member isAlive
      dsimp only [reload] at isAlive ⊢
      rcases cases later member with isOld | rfl
      · rw [Function.update_of_ne (old (sound.below later isOld))] at isAlive ⊢
        exact sound.carried later isOld isAlive
      · exact Function.update_self _ _ _
  · show ((setModule path vm.limit vm.modules).map LoadedModule.vmId).Pairwise _
    rw [map_vmId_setModule]
    exact sound.descending
  · intro later member
    rcases cases later member with isOld | rfl
    · exact Nat.lt_succ_of_lt (sound.below later isOld)
    · exact Nat.lt_succ_self _
  · exact fun builtin member => Nat.lt_succ_of_lt (sound.builtinBelow builtin member)
  · intro builtin member
    dsimp only [reload]
    rw [Function.update_of_ne (old (sound.builtinBelow builtin member))]
    exact sound.builtinAlive builtin member
  · exact sound.builtinModules
  · intro later member builtin isBuiltin same
    rcases cases later member with isOld | rfl
    · exact sound.named later isOld builtin isBuiltin same
    · exact absurd same.symm (old (sound.builtinBelow builtin isBuiltin))

/-- A module that is resolved for a new path is new or built in under this name. -/
theorem resolveNew_eq_ok {module : ℕ} (isNew : vm.resolveNew path resolved = .ok module) :
    module = vm.limit ∨
      ∃ builtin ∈ vm.builtinModules, builtin.name = path ∧ module = builtin.module := by
  unfold resolveNew getBuiltinModule at isNew
  split_ifs at isNew
  · cases found : vm.builtinModules.find? fun builtin => builtin.name = path with
    | none =>
        rw [found] at isNew
        cases isNew
    | some builtin =>
        rw [found] at isNew
        cases isNew
        have isName : builtin.name = path := by simpa using List.find?_some found
        exact Or.inr ⟨builtin, List.mem_of_find?_eq_some found, isName, rfl⟩
  · cases isNew
    exact Or.inl rfl

theorem Sound.module_ne (sound : Sound vm) (notFound : vm.findModule path = none) {module : ℕ}
    (isNew : vm.resolveNew path resolved = .ok module) (member : entry ∈ vm.modules) :
    entry.module ≠ module := by
  rcases resolveNew_eq_ok isNew with rfl | ⟨builtin, isBuiltin, isName, rfl⟩
  · exact Nat.ne_of_lt (sound.below entry member)
  · intro same
    have isPath := sound.named entry member builtin isBuiltin same
    rw [isName] at isPath
    exact findModule_eq_none notFound member isPath

theorem sound_register (sound : Sound vm) (notFound : vm.findModule path = none) {module : ℕ}
    (isNew : vm.resolveNew path resolved = .ok module) :
    Sound (vm.register module (some path)) := by
  have others : ∀ entry ∈ vm.modules, entry.module ≠ module := fun entry member =>
    sound.module_ne notFound isNew member
  have later : ∀ entry ∈ vm.modules, entry.vmId < vm.vmIdNext := fun entry member =>
    vmId_lt_next sound.descending member
  constructor
  · constructor
    · refine List.nodup_cons.mpr ⟨fun member => ?_, sound.ids⟩
      obtain ⟨entry, inModules, same⟩ := List.mem_map.mp member
      exact absurd same (later entry inModules).ne
    · refine List.nodup_cons.mpr ⟨fun member => ?_, sound.origins⟩
      obtain ⟨entry, inModules, same⟩ := List.mem_map.mp member
      exact findModule_eq_none notFound inModules same
    · intro entry member isAlive
      dsimp only [register] at isAlive ⊢
      rcases List.mem_cons.mp member with rfl | isOld
      · exact Function.update_self _ _ _
      · rw [Function.update_of_ne (others entry isOld)] at isAlive ⊢
        exact sound.carried entry isOld isAlive
  · refine List.pairwise_cons.mpr ⟨fun vmId member => ?_, sound.descending⟩
    obtain ⟨entry, inModules, rfl⟩ := List.mem_map.mp member
    exact later entry inModules
  · intro entry member
    dsimp only [register]
    rcases List.mem_cons.mp member with rfl | isOld
    · dsimp only
      omega
    · have below := sound.below entry isOld
      omega
  · intro builtin member
    have below := sound.builtinBelow builtin member
    dsimp only [register]
    omega
  · intro builtin member
    dsimp only [register]
    by_cases same : builtin.module = module
    · rw [same, Function.update_self]
    · rw [Function.update_of_ne same]
      exact sound.builtinAlive builtin member
  · exact sound.builtinModules
  · intro entry member builtin isBuiltin same
    rcases List.mem_cons.mp member with rfl | isOld
    · rcases resolveNew_eq_ok isNew with rfl | ⟨found, isFound, isName, rfl⟩
      · exact absurd same.symm (sound.builtinBelow builtin isBuiltin).ne
      · rw [← isName, List.inj_on_of_nodup_map sound.builtinModules isFound isBuiltin same]
    · exact sound.named entry isOld builtin isBuiltin same

/-- A load that changes nothing. -/
theorem loads_self {loaded : Option (List UInt8)} {result : Except LoadException ℕ}
    (registered : ∀ module, result = .ok module → ∃ entry ∈ vm.modules,
      entry.origin = loaded ∧ entry.module = module ∧ vm.alive module = true ∧
        vm.vmIdOf module = entry.vmId)
    (same : ∀ entry ∈ vm.modules, entry.origin = loaded → loaded ≠ none →
      vm.alive entry.module = true → result = .ok entry.module)
    (reloaded : ∀ entry ∈ vm.modules, entry.origin = loaded → loaded ≠ none →
      vm.alive entry.module = false → resolved = true → ∃ module, result = .ok module) :
    Loads vm vm loaded resolved result where
  thrown _ _ := rfl
  registered := registered
  kept entry member := ⟨entry, member, rfl, rfl⟩
  same := same
  reloaded := reloaded

/-- A path of the list. -/
theorem loads_found (sound : Sound vm) (found : vm.findModule path = some entry) :
    Sound (vm.loadModule (some path) resolved throwing).1 ∧
      Loads vm (vm.loadModule (some path) resolved throwing).1 (some path) resolved
        (vm.loadModule (some path) resolved throwing).2 := by
  obtain ⟨inModules, here⟩ := findModule_eq_some found
  have unique : ∀ other ∈ vm.modules, other.origin = some path → other = entry :=
    fun other member isPath =>
      List.inj_on_of_nodup_map sound.origins member inModules (isPath.trans here.symm)
  unfold loadModule
  dsimp only
  rw [found]
  dsimp only
  split_ifs with isAlive isResolved
  · refine ⟨sound, loads_self ?_ ?_ ?_⟩
    · intro module isOk
      cases isOk
      exact ⟨entry, inModules, here, rfl, isAlive, sound.carried entry inModules isAlive⟩
    · intro other member isPath _ _
      rw [unique other member isPath]
    · intro other member isPath _ isDead _
      rw [unique other member isPath, isAlive] at isDead
      cases isDead
  · refine ⟨sound_reload sound found, ?_, ?_, ?_, ?_, ?_⟩
    · intro exception isError
      cases isError
    · intro module isOk
      cases isOk
      exact ⟨{ entry with module := vm.limit }, mem_setModule_self sound.origins inModules here,
        here, rfl, Function.update_self _ _ _, Function.update_self _ _ _⟩
    · intro other member
      by_cases isPath : other.origin = some path
      · exact ⟨{ other with module := vm.limit }, mem_setModule_self sound.origins member isPath,
          rfl, rfl⟩
      · exact ⟨other, mem_setModule_of_ne member isPath, rfl, rfl⟩
    · intro other member isPath _ otherAlive
      rw [unique other member isPath] at otherAlive
      exact absurd otherAlive isAlive
    · exact fun _ _ _ _ _ _ => ⟨vm.limit, rfl⟩
  · refine ⟨sound, loads_self ?_ ?_ ?_⟩
    · intro module isOk
      cases isOk
    · intro other member isPath _ otherAlive
      rw [unique other member isPath] at otherAlive
      exact absurd otherAlive isAlive
    · intro _ _ _ _ _ resolves
      exact absurd resolves isResolved

/-- A load that fails before anything is registered. -/
theorem loads_failed {loaded : Option (List UInt8)} {exception : LoadException}
    (notFound : ∀ entry ∈ vm.modules, entry.origin = loaded → loaded = none) :
    Loads vm vm loaded resolved (.error exception) := by
  refine loads_self ?_ ?_ ?_
  · intro module isOk
    cases isOk
  · intro entry member isPath isSome _
    exact absurd (notFound entry member isPath) isSome
  · intro entry member isPath isSome _ _
    exact absurd (notFound entry member isPath) isSome

theorem loads_registered (notFound : vm.findModule path = none) (module : ℕ) :
    Loads vm (vm.register module (some path)) (some path) resolved (.ok module) where
  thrown exception isError := by cases isError
  registered other isOk := by
    cases isOk
    exact ⟨_, List.mem_cons_self, rfl, rfl, Function.update_self _ _ _, Function.update_self _ _ _⟩
  kept entry member := ⟨entry, List.mem_cons_of_mem _ member, rfl, rfl⟩
  same entry member isPath := absurd isPath (findModule_eq_none notFound member)
  reloaded entry member isPath := absurd isPath (findModule_eq_none notFound member)

theorem loads_of_permitted (sound : Sound vm) {loaded : Option (List UInt8)}
    (permitted : Permitted vm (.loadModule loaded resolved throwing)) :
    Sound (vm.loadModule loaded resolved throwing).1 ∧
      Loads vm (vm.loadModule loaded resolved throwing).1 loaded resolved
        (vm.loadModule loaded resolved throwing).2 := by
  cases loaded with
  | none => exact ⟨sound, loads_failed fun _ _ _ => rfl⟩
  | some path =>
      cases found : vm.findModule path with
      | some entry => exact loads_found sound found
      | none =>
          have failed : ∀ exception, Loads vm vm (some path) resolved (.error exception) :=
            fun _ => loads_failed fun entry member isPath =>
              absurd isPath (findModule_eq_none found member)
          unfold loadModule
          dsimp only
          rw [found]
          dsimp only
          cases isNew : vm.resolveNew path resolved with
          | error exception => exact ⟨sound, failed exception⟩
          | ok module =>
              cases isOrigin : originOf path with
              | error exception => exact ⟨sound, failed _⟩
              | ok origin =>
                  obtain ⟨rfl, rfl⟩ := permitted path rfl found module origin isNew isOrigin
                  exact ⟨sound_register sound found isNew, loads_registered found module⟩

/-- A new path whose load does what it has to is permitted. -/
theorem permitted_of_loads {loaded : Option (List UInt8)}
    (loads : Loads vm (vm.loadModule loaded resolved throwing).1 loaded resolved
      (vm.loadModule loaded resolved throwing).2) :
    Permitted vm (.loadModule loaded resolved throwing) := by
  intro path isPath notFound module origin isNew isOrigin
  cases isPath
  have isLoad : vm.loadModule (some path) resolved throwing =
      if throwing then (vm.register module origin, .error .callback)
      else (vm.register module origin, .ok module) := by
    unfold loadModule
    simp only [notFound, isNew, isOrigin]
  rw [isLoad] at loads
  cases throwing with
  | true =>
      exact absurd (loads.thrown _ rfl) (List.cons_ne_self _ _)
  | false =>
      obtain ⟨entry, member, isEntry, -⟩ := loads.registered module rfl
      refine ⟨rfl, ?_⟩
      rcases List.mem_cons.mp member with rfl | isOld
      · exact isEntry
      · exact absurd isEntry (findModule_eq_none notFound isOld)

theorem sound_expire (sound : Sound vm) (module : ℕ) : Sound (vm.step (.expire module)) := by
  unfold step
  dsimp only
  split_ifs with isBuiltin
  · exact sound
  · refine { sound with carried := fun entry member isAlive => ?_,
                        builtinAlive := fun builtin member => ?_ }
    · dsimp only at isAlive
      by_cases same : entry.module = module
      · rw [same, Function.update_self] at isAlive
        cases isAlive
      · rw [Function.update_of_ne same] at isAlive
        exact sound.carried entry member isAlive
    · dsimp only
      have other : builtin.module ≠ module := fun same => isBuiltin ⟨builtin, member, same⟩
      rw [Function.update_of_ne other]
      exact sound.builtinAlive builtin member

theorem loadElsewhere_iff (sound : Sound vm) (builtin : BuiltinModule) (vmId : ℕ) :
    Consistent (vm.step (.loadElsewhere builtin vmId)) ↔
      Permitted vm (.loadElsewhere builtin vmId) := by
  unfold step Permitted
  dsimp only
  split_ifs with isBuiltin
  · constructor
    · intro consistent _ entry member same
      have isAlive := sound.builtinAlive builtin isBuiltin
      rw [← same] at isAlive
      have carried := consistent.carried entry member isAlive
      dsimp only at carried
      rw [same, Function.update_self] at carried
      exact carried.symm
    · intro permitted
      refine { sound.toConsistent with carried := fun entry member isAlive => ?_ }
      dsimp only
      by_cases same : entry.module = builtin.module
      · rw [same, Function.update_self, permitted isBuiltin entry member same]
      · rw [Function.update_of_ne same]
        exact sound.carried entry member isAlive
  · exact iff_of_true sound.toConsistent fun isMember => absurd isMember isBuiltin

theorem sound_loadElsewhere (sound : Sound vm) (builtin : BuiltinModule) (vmId : ℕ)
    (consistent : Consistent (vm.step (.loadElsewhere builtin vmId))) :
    Sound (vm.step (.loadElsewhere builtin vmId)) := by
  revert consistent
  unfold step
  dsimp only
  split_ifs
  · exact fun consistent => { sound with toConsistent := consistent }
  · exact fun _ => sound

theorem keeps_iff (sound : Sound vm) (action : Action) :
    Keeps vm action ↔ Permitted vm action := by
  cases action with
  | loadModule path resolved throwing =>
      constructor
      · intro keeps
        exact permitted_of_loads (keeps.loads path resolved throwing rfl)
      · intro permitted
        obtain ⟨later, loads⟩ := loads_of_permitted sound permitted
        refine ⟨later.toConsistent, fun otherPath otherResolved otherThrowing same => ?_⟩
        cases same
        exact loads
  | expire module =>
      refine iff_of_true ⟨(sound_expire sound module).toConsistent, fun _ _ _ same => ?_⟩ trivial
      cases same
  | loadElsewhere builtin vmId =>
      rw [← loadElsewhere_iff sound]
      refine ⟨Keeps.consistent, fun consistent => ⟨consistent, fun _ _ _ same => ?_⟩⟩
      cases same

theorem sound_step (sound : Sound vm) {action : Action} (keeps : Keeps vm action) :
    Sound (vm.step action) := by
  cases action with
  | loadModule path resolved throwing =>
      exact (loads_of_permitted sound ((keeps_iff sound _).mp keeps)).1
  | expire module => exact sound_expire sound module
  | loadElsewhere builtin vmId => exact sound_loadElsewhere sound builtin vmId keeps.consistent

end Steps

theorem sound_start (names : List (List UInt8)) (vmIdOf : ℕ → ℕ) : Sound (start names vmIdOf) := by
  have isIndex : (start names vmIdOf).builtinModules.map BuiltinModule.module =
      List.range names.length := by
    show (names.zipIdx.map fun (name, module) => (⟨name, module⟩ : BuiltinModule)).map _ = _
    rw [List.map_map, List.range_eq_range']
    exact List.zipIdx_map_snd 0 names
  have below : ∀ builtin ∈ (start names vmIdOf).builtinModules,
      builtin.module < names.length := fun builtin member =>
    List.mem_range.mp (isIndex ▸ List.mem_map_of_mem member)
  constructor
  · exact ⟨List.nodup_nil, List.nodup_nil, fun _ member => by cases member⟩
  · exact List.Pairwise.nil
  · exact fun _ member => by cases member
  · exact below
  · exact fun builtin member => decide_eq_true (below builtin member)
  · rw [isIndex]
    exact List.nodup_range
  · exact fun _ member => by cases member

/-- Every step of a run keeps the registry as it has to be exactly when every step is
permitted. -/
theorem registry_keeps_throughout_iff (names : List (List UInt8)) (vmIdOf : ℕ → ℕ)
    (actions : List Action) :
    Transition.Throughout step Keeps (start names vmIdOf) actions ↔
      Transition.Throughout step Permitted (start names vmIdOf) actions :=
  Transition.throughout_iff Sound (fun _ action sound => keeps_iff sound action)
    (fun _ _ sound keeps => sound_step sound keeps) (sound_start names vmIdOf) actions

/-- A tool that throws on a new module leaves it registered, and a path of one byte
that is no UTF-8 is not found again. -/
theorem registered_after_throw :
    ¬ Transition.Throughout step Keeps (start [] fun _ => 0)
        [.loadModule (some [0x61]) true true] ∧
      ¬ Transition.Throughout step Keeps (start [] fun _ => 0)
        [.loadModule (some [0xff]) true false] := by
  constructor
  · rintro ⟨keeps, -⟩
    have unchanged := (keeps.loads _ _ _ rfl).thrown .callback rfl
    exact absurd (congrArg List.length unchanged) (by decide)
  · rintro ⟨keeps, -⟩
    obtain ⟨entry, member, isPath, -⟩ := (keeps.loads _ _ _ rfl).registered 0 rfl
    rw [List.mem_singleton.mp member] at isPath
    exact absurd isPath (by decide)

end Vm

end Disvm.ModuleRegistry
