import Disvm.SymbolTypes
import Mathlib.Data.Nat.Find

/-!
# Functions and statements of symbol files

The limit of a function is filled in when the entry of the next one has been read.  A function
is looked up by a pc between its entry and its limit, and the pcs are walked through by the
statements that they belong to.
-/

namespace Disvm.SymbolFile

open DecimalText

/-- `func_item_t`. -/
structure FuncItem where
  entryPc : ℤ
  limitPc : ℤ
  name : List Char
  args : List IdItem
  locals : List IdItem
  returnType : TypeT
  deriving DecidableEq, Repr

/-- What a file says of a function, which is all but its limit. -/
structure Function where
  entryPc : ℤ
  name : List Char
  args : List IdItem
  locals : List IdItem
  returnType : TypeT
  deriving DecidableEq, Repr

def FuncItem.function (f : FuncItem) : Function :=
  ⟨f.entryPc, f.name, f.args, f.locals, f.returnType⟩

section Reading

variable (uninitialized : SourceRef) (readTy : TypeReader) (lastPc : ℤ)

/-- The next function, with the limit that it has as the last one. -/
def readFunc (r : Reader) : Except ReadError (FuncItem × Reader) := do
  let (entryPart, r) := r.getAsStringUntil ':'
  let (entryPc, _) ← stoi entryPart
  let (name, r) := r.getAsStringUntil '\n'
  let (args, r) ← readIdTable uninitialized readTy r
  let (locals, r) ← readIdTable uninitialized readTy r
  let (returnType, r) ← readTy r
  return ({ entryPc, limitPc := lastPc, name, args, locals, returnType }, r)

/-- The limit of the previous function is updated. -/
def addFunc (table : List FuncItem) (func : FuncItem) : List FuncItem :=
  let table :=
    if 0 < table.length then
      table.modify (table.length - 1) fun previous => { previous with limitPc := func.entryPc - 1 }
    else table
  table ++ [func]

def readFuncs : ℕ → List FuncItem → Reader → Except ReadError (List FuncItem × Reader)
  | 0, table, r => .ok (table, r)
  | count + 1, table, r => do
      let (func, r) ← readFunc uninitialized readTy lastPc r
      readFuncs count (addFunc table func) r

/-- `read_func_table`. -/
def readFuncTable (r : Reader) : Except ReadError (List FuncItem × Reader) := do
  let (countStr, r) := r.getAsStringUntil '\n'
  let (count, _) ← stoi countStr
  if count < 0 then .error .length
  else readFuncs uninitialized readTy (r.fc.pcCount - 1) count.toNat [] r

/-- The text of some functions, from where a reader is to where it is behind them. -/
inductive FuncTexts : List Function → Reader → Reader → Prop
  | nil (r : Reader) : FuncTexts [] r r
  | cons {entry body : List Char} {value : ℤ × List Char} {f : Function}
      {functions : List Function} {r r₁ r₂ r₃ r' : Reader}
      (isText : r.text = entry ++ ':' :: (f.name ++ '\n' :: body))
      (isEntry : ':' ∉ entry) (isValue : stoi entry = .ok value) (isPc : value.1 = f.entryPc)
      (isName : '\n' ∉ f.name)
      (args : readIdTable uninitialized readTy { r with text := body } = .ok (f.args, r₁))
      (locals : readIdTable uninitialized readTy r₁ = .ok (f.locals, r₂))
      (returnType : readTy r₂ = .ok (f.returnType, r₃))
      (later : FuncTexts functions r₃ r') : FuncTexts (f :: functions) r r'

/-- The text of a table of functions. -/
structure FuncTable (functions : List Function) (r r' : Reader) where
  count : List Char
  body : List Char
  value : ℤ × List Char
  isText : r.text = count ++ '\n' :: body
  isCount : '\n' ∉ count
  isValue : stoi count = .ok value
  isLength : value.1 = functions.length
  functions : FuncTexts uninitialized readTy functions { r with text := body } r'

end Reading

/-- `function_name_format_t`. -/
structure FunctionNameFormat where
  name : Bool
  arguments : Bool
  returnType : Bool
  deriving DecidableEq, Repr

/-- `to_string` of a function, as far as it goes without an exception and to a depth. -/
def TypeTable.funcToString (tt : TypeTable) (depth : ℕ) (f : FuncItem) (fmt : FunctionNameFormat) :
    Option (List Char) := do
  let name := if fmt.name then f.name else []
  let arguments ←
    if fmt.arguments then do
      let types ← f.args.mapM fun argument => tt.toString depth argument.type
      pure ('(' :: ([','].intercalate types ++ [')']))
    else pure []
  let returnType ←
    if fmt.returnType ∧ f.returnType.typeClass ≠ .basic .none then do
      let text ← tt.toString depth f.returnType
      pure (if fmt.name ∨ fmt.arguments then ':' :: text else text)
    else pure []
  return name ++ arguments ++ returnType

/-- The loop of `current_function_name`. -/
def functionAt (pc : ℤ) : List FuncItem → Option FuncItem
  | [] => none
  | e :: rest => if e.entryPc ≤ pc ∧ pc ≤ e.limitPc then some e else functionAt pc rest

/-- `current_function_name`, nothing when it throws. -/
def currentFunctionName (table : List FuncItem) (tt : TypeTable) (depth : ℕ) (pc : ℤ)
    (fmt : FunctionNameFormat) : Option (List Char) := do
  tt.funcToString depth (← functionAt pc table) fmt

/-- `advance_pc_t`. -/
inductive AdvancePc where
  | nextDebugStatement
  | nextPc
  | current
  deriving DecidableEq, Repr

/-- The first pc from one on that has another statement. -/
def skipStatement (currentDbg : ℤ) : List PcItem → (pc : ℕ) → Option ℕ
  | [], _ => none
  | item :: rest, pc =>
      if item.debugStatement = currentDbg then skipStatement currentDbg rest (pc + 1) else some pc

/-- `try_advance_pc`: the new pc, or nothing and the pc stays.  A pc behind the table is never
set. -/
def tryAdvancePc (table : List PcItem) (pc : ℕ) : AdvancePc → Option ℕ
  | .nextDebugStatement =>
      match table.drop pc with
      | [] => none
      | item :: rest => skipStatement item.debugStatement (item :: rest) pc
  | .nextPc => if table.length ≤ pc + 1 then none else some (pc + 1)
  | .current => some pc

/-- The pcs from the entry of a function to its limit. -/
def FuncItem.Covers (f : FuncItem) (pc : ℤ) : Prop :=
  f.entryPc ≤ pc ∧ pc ≤ f.limitPc

/-- Entries are ascending and before the end of the code. -/
structure Ordered (entries : List ℤ) (pcCount : ℤ) : Prop where
  ascending : entries.Pairwise (· < ·)
  below : ∀ entryPc ∈ entries, entryPc < pcCount

/-- The last function whose entry is not behind the pc. -/
structure LastBefore (table : List FuncItem) (pc : ℤ) (index : ℕ) (f : FuncItem) : Prop where
  here : table[index]? = some f
  entered : f.entryPc ≤ pc
  last : ∀ later g, index < later → table[later]? = some g → pc < g.entryPc

/-- The pc belongs to the last function that it is not before, and to no other one. -/
def Partitioned (table : List FuncItem) (tt : TypeTable) (depth : ℕ) (pc : ℤ)
    (fmt : FunctionNameFormat) : Prop :=
  ∃ index f, LastBefore table pc index f ∧
    (∀ other g, table[other]? = some g → (g.Covers pc ↔ other = index)) ∧
    currentFunctionName table tt depth pc fmt = tt.funcToString depth f fmt

/-- The pcs from one on that have another statement than the pc before them. -/
def runStarts (table : List PcItem) (pc : ℕ) : List ℕ :=
  (List.range' pc (table.length - pc)).filter fun pc =>
    (table[pc - 1]?).map PcItem.debugStatement ≠ (table[pc]?).map PcItem.debugStatement

/-- The pcs that are visited until there is no further advance. -/
inductive Repeats (table : List PcItem) : ℕ → List ℕ → Prop
  | stops {pc : ℕ} (last : tryAdvancePc table pc .nextDebugStatement = none) : Repeats table pc []
  | goes {pc next : ℕ} {visited : List ℕ}
      (advances : tryAdvancePc table pc .nextDebugStatement = some next)
      (later : Repeats table next visited) : Repeats table pc (next :: visited)

section Limits

variable {uninitialized : SourceRef} {readTy : TypeReader} {lastPc : ℤ}

/-- The limit of a function by the one that follows. -/
def limitBefore (lastPc : ℤ) : Option FuncItem → ℤ
  | some next => next.entryPc - 1
  | none => lastPc

/-- Every function ends before the next one, and the last one at the last pc. -/
def Limited (lastPc : ℤ) (table : List FuncItem) : Prop :=
  ∀ index f, table[index]? = some f → f.limitPc = limitBefore lastPc table[index + 1]?

theorem modify_last (earlier : List FuncItem) (previous : FuncItem) (f : FuncItem → FuncItem) :
    (earlier ++ [previous]).modify earlier.length f = earlier ++ [f previous] := by
  induction earlier with
  | nil => rfl
  | cons first earlier ih =>
      rw [List.cons_append, List.length_cons, List.modify_succ_cons, ih]
      rfl

theorem limited_addFunc {table : List FuncItem} (limited : Limited lastPc table) {func : FuncItem}
    (isLast : func.limitPc = lastPc) : Limited lastPc (addFunc table func) := by
  intro index f isHere
  rcases List.eq_nil_or_concat' table with rfl | ⟨earlier, previous, rfl⟩
  · have isAdded : addFunc [] func = [func] := rfl
    rw [isAdded] at isHere ⊢
    cases index with
    | zero =>
        obtain rfl := Option.some.inj isHere
        exact isLast
    | succ index => cases isHere
  · have isAdded : addFunc (earlier ++ [previous]) func =
        earlier ++ [{ previous with limitPc := func.entryPc - 1 }, func] := by
      unfold addFunc
      rw [if_pos (by simp), List.length_append, List.length_singleton, Nat.add_sub_cancel,
        modify_last, List.append_assoc]
      rfl
    rw [isAdded] at isHere ⊢
    rcases Nat.lt_trichotomy index earlier.length with before | rfl | behind
    · rw [List.getElem?_append_left before] at isHere
      have limit := limited index f (by rw [List.getElem?_append_left before, isHere])
      rw [limit]
      rcases Nat.lt_or_ge (index + 1) earlier.length with inside | atEnd
      · rw [List.getElem?_append_left inside, List.getElem?_append_left inside]
      · have isEnd : index + 1 = earlier.length := by omega
        rw [isEnd, List.getElem?_append_right le_rfl, List.getElem?_append_right le_rfl,
          Nat.sub_self]
        rfl
    · rw [List.getElem?_append_right le_rfl, Nat.sub_self] at isHere
      obtain rfl := Option.some.inj isHere
      rw [List.getElem?_append_right (Nat.le_add_right _ 1), Nat.add_sub_cancel_left]
      rfl
    · rw [List.getElem?_append_right (Nat.le_of_lt behind)] at isHere
      obtain ⟨place, isPlace⟩ := Nat.exists_eq_add_of_lt behind
      have isOne : index - earlier.length = place + 1 := by omega
      rw [isOne] at isHere
      cases place with
      | zero =>
          obtain rfl := Option.some.inj isHere
          rw [List.getElem?_eq_none (by simp; omega)]
          exact isLast
      | succ place => cases isHere

theorem function_addFunc (table : List FuncItem) (func : FuncItem) :
    (addFunc table func).map FuncItem.function =
      table.map FuncItem.function ++ [func.function] := by
  rcases List.eq_nil_or_concat' table with rfl | ⟨earlier, previous, rfl⟩
  · rfl
  · unfold addFunc
    rw [if_pos (by simp), List.length_append, List.length_singleton, Nat.add_sub_cancel,
      modify_last]
    simp [FuncItem.function]

theorem readFuncs_eq {functions : List Function} {r r' : Reader}
    (texts : FuncTexts uninitialized readTy functions r r') {done : List FuncItem}
    (limited : Limited lastPc done) :
    ∃ table, readFuncs uninitialized readTy lastPc functions.length done r = .ok (table, r') ∧
      table.map FuncItem.function = done.map FuncItem.function ++ functions ∧
      Limited lastPc table := by
  induction texts generalizing done with
  | nil r => exact ⟨done, rfl, (List.append_nil _).symm, limited⟩
  | @cons entry body value f functions r r₁ r₂ r₃ r' isText isEntry isValue isPc isName args locals
      returnType later ih =>
      let func : FuncItem := ⟨f.entryPc, lastPc, f.name, f.args, f.locals, f.returnType⟩
      have isFunc : readFunc uninitialized readTy lastPc r = .ok (func, r₃) := by
        unfold readFunc Reader.getAsStringUntil
        rw [isText, readUntil_append isEntry]
        dsimp only
        rw [isValue]
        dsimp only [bind, Except.bind]
        rw [readUntil_append isName]
        dsimp only
        rw [args]
        dsimp only
        rw [locals]
        dsimp only
        rw [returnType, isPc]
        rfl
      have isLimited : Limited lastPc (addFunc done func) := limited_addFunc limited rfl
      obtain ⟨table, isRead, same, tableLimited⟩ := ih isLimited
      refine ⟨table, ?_, ?_, tableLimited⟩
      · rw [List.length_cons, readFuncs, isFunc]
        exact isRead
      · calc
          table.map FuncItem.function =
              (addFunc done func).map FuncItem.function ++ functions := same
          _ = done.map FuncItem.function ++ [f] ++ functions := by rw [function_addFunc]; rfl
          _ = done.map FuncItem.function ++ f :: functions := by
            rw [List.append_assoc, List.singleton_append]

/-- The functions of the file are read, with their limits. -/
theorem readFuncTable_eq {functions : List Function} {r r' : Reader}
    (written : FuncTable uninitialized readTy functions r r') :
    ∃ table, readFuncTable uninitialized readTy r = .ok (table, r') ∧
      table.map FuncItem.function = functions ∧ Limited (r.fc.pcCount - 1) table := by
  obtain ⟨count, body, value, isText, isCount, isValue, isLength, texts⟩ := written
  have empty : Limited (r.fc.pcCount - 1) [] := fun index f isHere => by cases isHere
  obtain ⟨table, isRead, same, limited⟩ := readFuncs_eq texts empty
  refine ⟨table, ?_, same, limited⟩
  unfold readFuncTable Reader.getAsStringUntil
  rw [isText, readUntil_append isCount]
  dsimp only
  rw [isValue]
  dsimp only [bind, Except.bind]
  rw [isLength, if_neg (by omega), Int.toNat_natCast]
  exact isRead

end Limits

section Lookup

variable {table : List FuncItem} {pc pcCount : ℤ}

theorem Ordered.entries_lt (ordered : Ordered (table.map FuncItem.entryPc) pcCount)
    {index later : ℕ} {f g : FuncItem}
    (before : index < later) (isHere : table[index]? = some f) (isLater : table[later]? = some g) :
    f.entryPc < g.entryPc := by
  obtain ⟨inside, rfl⟩ := List.getElem?_eq_some_iff.mp isHere
  obtain ⟨laterInside, rfl⟩ := List.getElem?_eq_some_iff.mp isLater
  have pairwise := List.pairwise_iff_getElem.mp ordered.ascending index later
    (by rwa [List.length_map]) (by rwa [List.length_map]) before
  rwa [List.getElem_map, List.getElem_map] at pairwise

/-- The pc is not before the function at an index. -/
def Entered (table : List FuncItem) (pc : ℤ) (index : ℕ) : Prop :=
  ∃ f, table[index]? = some f ∧ f.entryPc ≤ pc

theorem exists_lastBefore (entered : ∃ first ∈ table.head?, first.entryPc ≤ pc) :
    ∃ index f, LastBefore table pc index f := by
  rw [List.head?_eq_getElem?] at entered
  have firstEntered : Entered table pc 0 := entered
  have bounded : ∀ index, Entered table pc index → index ≤ table.length := by
    rintro index ⟨f, isHere, -⟩
    exact Nat.le_of_lt (List.getElem?_eq_some_iff.mp isHere).1
  classical
  obtain ⟨f, isHere, isEntered⟩ :=
    Nat.findGreatest_spec (Nat.zero_le table.length) firstEntered
  refine ⟨_, f, isHere, isEntered, fun later g behind isLater => ?_⟩
  by_contra notBehind
  have laterEntered : Entered table pc later := ⟨g, isLater, Int.not_lt.mp notBehind⟩
  exact Nat.findGreatest_is_greatest behind (bounded later laterEntered) laterEntered

theorem LastBefore.covers_iff (limited : Limited (pcCount - 1) table)
    (ordered : Ordered (table.map FuncItem.entryPc) pcCount) (inCode : pc < pcCount)
    {index : ℕ} {f : FuncItem}
    (isLast : LastBefore table pc index f) {other : ℕ} {g : FuncItem}
    (isOther : table[other]? = some g) : g.Covers pc ↔ other = index := by
  have limit := limited other g isOther
  constructor
  · rintro ⟨entered, notPassed⟩
    rcases Nat.lt_trichotomy other index with before | same | behind
    · have inside := (List.getElem?_eq_some_iff.mp isLast.here).1
      have isNext := List.getElem?_eq_getElem (show other + 1 < table.length by omega)
      rw [isNext, limitBefore] at limit
      have nextEntered : (table[other + 1]).entryPc ≤ f.entryPc := by
        rcases Nat.lt_or_ge (other + 1) index with earlier | atIndex
        · exact Int.le_of_lt (ordered.entries_lt earlier isNext isLast.here)
        · have isIndex : other + 1 = index := by omega
          subst isIndex
          rw [isLast.here] at isNext
          rw [Option.some.inj isNext]
      have entered := isLast.entered
      omega
    · exact same
    · exact absurd (isLast.last other g behind isOther) (Int.not_lt.mpr entered)
  · rintro rfl
    rw [isLast.here] at isOther
    obtain rfl := Option.some.inj isOther
    refine ⟨isLast.entered, ?_⟩
    cases isNext : table[other + 1]? with
    | none =>
        rw [isNext, limitBefore] at limit
        omega
    | some next =>
        have passed := isLast.last (other + 1) next (Nat.lt_succ_self other) isNext
        rw [isNext, limitBefore] at limit
        omega

theorem functionAt_eq (pc : ℤ) (table : List FuncItem) :
    functionAt pc table = table.find? fun e => decide (e.entryPc ≤ pc ∧ pc ≤ e.limitPc) := by
  induction table with
  | nil => rfl
  | cons e rest ih =>
      rw [functionAt, List.find?_cons, ih]
      by_cases covers : e.entryPc ≤ pc ∧ pc ≤ e.limitPc
      · rw [if_pos covers, decide_eq_true covers]
      · rw [if_neg covers, decide_eq_false covers]

theorem functionAt_of_covers {index : ℕ} {f : FuncItem} (isHere : table[index]? = some f)
    (covers : ∀ other g, table[other]? = some g → (g.Covers pc ↔ other = index)) :
    functionAt pc table = some f := by
  obtain ⟨inside, isElement⟩ := List.getElem?_eq_some_iff.mp isHere
  rw [functionAt_eq, List.find?_eq_some_iff_getElem, decide_eq_true_iff]
  refine ⟨(covers index f isHere).mpr rfl, index, inside, isElement, fun other before => ?_⟩
  have isOther := List.getElem?_eq_getElem (show other < table.length by omega)
  rw [Bool.not_eq_true', decide_eq_false_iff_not]
  exact fun covered => absurd ((covers other _ isOther).mp covered) (Nat.ne_of_lt before)

theorem partitioned_of_ordered (limited : Limited (pcCount - 1) table)
    (ordered : Ordered (table.map FuncItem.entryPc) pcCount) (tt : TypeTable) (depth : ℕ)
    (entered : ∃ first ∈ table.head?, first.entryPc ≤ pc) (inCode : pc < pcCount)
    (fmt : FunctionNameFormat) : Partitioned table tt depth pc fmt := by
  obtain ⟨index, f, isLast⟩ := exists_lastBefore entered
  have covers : ∀ other g, table[other]? = some g → (g.Covers pc ↔ other = index) :=
    fun other g isOther => isLast.covers_iff limited ordered inCode isOther
  refine ⟨index, f, isLast, covers, ?_⟩
  unfold currentFunctionName
  rw [functionAt_of_covers isLast.here covers]
  rfl

end Lookup

section Statements

variable {table rest : List PcItem} {pc : ℕ}

theorem runStarts_end (isEnd : table.drop pc = []) : runStarts table pc = [] := by
  have behind := List.drop_eq_nil_iff.mp isEnd
  rw [runStarts, Nat.sub_eq_zero_of_le behind]
  rfl

theorem runStarts_cons {item : PcItem} (isNext : table.drop pc = item :: rest) :
    runStarts table pc =
      if (table[pc - 1]?).map PcItem.debugStatement ≠ some item.debugStatement then
        pc :: runStarts table (pc + 1)
      else runStarts table (pc + 1) := by
  have isItem : table[pc]? = some item := by rw [← List.head?_drop, isNext]; rfl
  have inside := (List.getElem?_eq_some_iff.mp isItem).1
  obtain ⟨left, isLeft⟩ := Nat.exists_eq_add_of_lt inside
  have isLength : table.length - pc = table.length - (pc + 1) + 1 := by omega
  unfold runStarts
  rw [isLength, List.range'_succ, List.filter_cons, isItem]
  simp

theorem drop_succ {item : PcItem} (isNext : table.drop pc = item :: rest) :
    table.drop (pc + 1) = rest := by
  rw [← List.drop_drop, isNext]
  rfl

/-- What is skipped begins no run. -/
theorem skipStatement_spec {currentDbg : ℤ} (isRest : table.drop pc = rest)
    (isCurrent : (table[pc - 1]?).map PcItem.debugStatement = some currentDbg) :
    (skipStatement currentDbg rest pc = none → runStarts table pc = []) ∧
    ∀ next, skipStatement currentDbg rest pc = some next →
      runStarts table pc = next :: runStarts table (next + 1) ∧ pc ≤ next := by
  induction rest generalizing pc with
  | nil => exact ⟨fun _ => runStarts_end isRest, fun next found => by cases found⟩
  | cons item rest ih =>
      rw [runStarts_cons isRest, isCurrent, skipStatement]
      by_cases same : item.debugStatement = currentDbg
      · have isItem : table[pc]? = some item := by rw [← List.head?_drop, isRest]; rfl
        have isNext : (table[pc + 1 - 1]?).map PcItem.debugStatement = some currentDbg := by
          rw [Nat.add_sub_cancel, isItem, ← same]
          rfl
        rw [if_pos same, if_neg (not_not_intro (congrArg some same.symm))]
        obtain ⟨none, found⟩ := ih (drop_succ isRest) isNext
        exact ⟨none, fun next isFound => ⟨(found next isFound).1, by
          have later := (found next isFound).2
          omega⟩⟩
      · have differs : some currentDbg ≠ some item.debugStatement := fun isSame =>
          same (Option.some.inj isSame).symm
        rw [if_neg same, if_pos differs]
        constructor
        · intro found
          cases found
        · intro next found
          obtain rfl := Option.some.inj found
          exact ⟨rfl, le_rfl⟩

/-- One advance goes to the next start of a run. -/
theorem tryAdvancePc_spec (table : List PcItem) (pc : ℕ) :
    (tryAdvancePc table pc .nextDebugStatement = none → runStarts table (pc + 1) = []) ∧
    ∀ next, tryAdvancePc table pc .nextDebugStatement = some next →
      runStarts table (pc + 1) = next :: runStarts table (next + 1) ∧ pc < next := by
  rw [tryAdvancePc]
  cases isRest : table.drop pc with
  | nil =>
      have isEnd : table.drop (pc + 1) = [] := by rw [← List.drop_drop, isRest]; rfl
      exact ⟨fun _ => runStarts_end isEnd, fun next found => by cases found⟩
  | cons item rest =>
      have isItem : table[pc]? = some item := by rw [← List.head?_drop, isRest]; rfl
      have isCurrent : (table[pc + 1 - 1]?).map PcItem.debugStatement =
          some item.debugStatement := by
        rw [Nat.add_sub_cancel, isItem]
        rfl
      dsimp only
      rw [skipStatement, if_pos rfl]
      exact skipStatement_spec (drop_succ isRest) isCurrent

theorem repeats_runStarts (table : List PcItem) (start : ℕ) :
    Repeats table start (runStarts table (start + 1)) := by
  induction isLeft : table.length - start using Nat.strong_induction_on generalizing start with
  | h left ih =>
      obtain ⟨stops, goes⟩ := tryAdvancePc_spec table start
      cases advanced : tryAdvancePc table start .nextDebugStatement with
      | none =>
          rw [stops advanced]
          exact .stops advanced
      | some next =>
          obtain ⟨isStart, later⟩ := goes next advanced
          have inside : start < table.length := by
            by_contra behind
            have isEnd : table.drop start = [] := List.drop_eq_nil_iff.mpr (by omega)
            rw [tryAdvancePc, isEnd] at advanced
            cases advanced
          rw [isStart]
          exact .goes advanced (ih (table.length - next) (by omega) next rfl)

theorem Repeats.unique {start : ℕ} {visited other : List ℕ} (first : Repeats table start visited)
    (second : Repeats table start other) : visited = other := by
  induction first generalizing other with
  | stops last =>
      cases second with
      | stops _ => rfl
      | goes advances _ =>
          rw [last] at advances
          cases advances
  | goes advances _ ih =>
      cases second with
      | stops last =>
          rw [advances] at last
          cases last
      | goes others later =>
          rw [advances] at others
          obtain rfl := Option.some.inj others
          rw [ih later]

theorem repeats_iff (table : List PcItem) (start : ℕ) (visited : List ℕ) :
    Repeats table start visited ↔ visited = runStarts table (start + 1) := by
  constructor
  · intro repeated
    exact repeated.unique (repeats_runStarts table start)
  · rintro rfl
    exact repeats_runStarts table start

end Statements

def noSource : SourceRef := ⟨0, 0, 0, 0, 0, 0⟩

/-- `f` and `g` in five instructions, with an argument of `g`. -/
def twoFunctions : Reader where
  text := "2\n0:f\n0\n0\nn3:g\n1\n0:x:4.1,2 i\n0\ni".toList
  tt := ⟨[], [], [], [], [], []⟩
  fc := ⟨5, 0, 0⟩

/-- Three statements. -/
def fiveInstructions : List PcItem :=
  [⟨noSource, 0⟩, ⟨noSource, 0⟩, ⟨noSource, 1⟩, ⟨noSource, 1⟩, ⟨noSource, 2⟩]

def firstFunction : Function := ⟨0, ['f'], [], [], ⟨.basic .none, 0, 0⟩⟩

def secondFunction : Function where
  entryPc := 3
  name := ['g']
  args := [⟨0, ['x'], ⟨0, 4, 1, 0, 4, 2⟩, ⟨.basic .int, 0, 0⟩⟩]
  locals := []
  returnType := ⟨.basic .int, 0, 0⟩

/-- `twoFunctions` in front of some text that is left. -/
def twoFunctionsAt (text : List Char) (lastLine : ℤ) : Reader :=
  ⟨text, twoFunctions.tt, ⟨5, 0, lastLine⟩⟩

theorem twoFunctions_written : FuncTexts noSource (readType noSource 1)
    [firstFunction, secondFunction] (twoFunctionsAt (twoFunctions.text.drop 2) 0)
    (twoFunctionsAt [] 4) := by
  have second : FuncTexts noSource (readType noSource 1) [secondFunction]
      (twoFunctionsAt "3:g\n1\n0:x:4.1,2 i\n0\ni".toList 0) (twoFunctionsAt [] 4) := by
    refine @FuncTexts.cons _ _ ['3'] "1\n0:x:4.1,2 i\n0\ni".toList (3, []) _ _ _
      (twoFunctionsAt "0\ni".toList 4) (twoFunctionsAt ['i'] 4) _ _ ?_ ?_ ?_ rfl ?_ ?_ ?_ ?_
      (.nil _)
    all_goals decide +kernel
  refine @FuncTexts.cons _ _ ['0'] "0\n0\nn3:g\n1\n0:x:4.1,2 i\n0\ni".toList (0, []) _ _ _
    (twoFunctionsAt "0\nn3:g\n1\n0:x:4.1,2 i\n0\ni".toList 0)
    (twoFunctionsAt "n3:g\n1\n0:x:4.1,2 i\n0\ni".toList 0) _ _ ?_ ?_ ?_ rfl ?_ ?_ ?_ ?_ second
  all_goals decide +kernel

/-- The table of the two functions: `f` ends where `g` begins, and `g` with the code. -/
def twoItems : List FuncItem :=
  [⟨0, 2, ['f'], [], [], firstFunction.returnType⟩,
    ⟨3, 4, ['g'], secondFunction.args, [], secondFunction.returnType⟩]

end Disvm.SymbolFile
