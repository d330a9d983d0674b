import Disvm.RefSurvivors
import Mathlib.Data.List.TakeWhile

/-!
# Tokenizing

The tokens of a string are put into a linked list, which grows at its end.  The node for the
first token is made before a token has been found.
-/

namespace Disvm.Tokenizing

open RefCounting

/-- `vm_list_t` with strings as values, nothing for nil. -/
structure ListNode where
  refCount : ℕ
  value : Option (List ℕ)
  tail : Option ℕ
  deriving DecidableEq, Repr

def counted : Counted ListNode where
  refCount := ListNode.refCount
  refs node := node.tail.toList
  setCount count node := { node with refCount := count }
  refCount_setCount _ _ := rfl
  refs_setCount _ _ := rfl
  setCount_setCount _ _ _ := rfl
  setCount_refCount _ := rfl

/-- A new node has one reference. -/
def newNode : ListNode where
  refCount := 1
  value := none
  tail := none

def setValue (heap : Heap ListNode) (node : ℕ) (value : List ℕ) : Heap ListNode :=
  heap.modify node fun node => { node with value := some value }

/-- `set_tail`; the elements have one type. -/
def setTail (heap : Heap ListNode) (node newTail : ℕ) : Heap ListNode :=
  let added := addRef counted heap newTail
  let prevTail := (added.cells node).bind ListNode.tail
  (release counted (added.modify node fun node => { node with tail := some newTail })
    prevTail.toList).1

/-- `is_delim`, with the tests for three delimiters or less written out. -/
def isDelim (c : ℕ) (delim : List ℕ) : Bool :=
  match delim with
  | [first, second, third] =>
      if third ≠ c then
        if second ≠ c then
          if first ≠ c then false else true
        else true
      else true
  | [first, second] =>
      if second ≠ c then
        if first ≠ c then false else true
      else true
  | [first] => if first ≠ c then false else true
  | [] => false
  | _ => delim.any fun rune => rune == c

/-- The index of the first rune from the index on that fails the test; the runes are those
from the index on. -/
def advanceWhile (test : ℕ → Bool) : List ℕ → ℕ → ℕ
  | [], index => index
  | c :: rest, index => if test c then advanceWhile test rest (index + 1) else index

structure State where
  heap : Heap ListNode
  currNode : Option ℕ
  prevNode : Option ℕ
  begin : ℕ
  n : ℕ

/-- The current node, a new one if there is none. -/
def takeNode (state : State) : Heap ListNode × ℕ :=
  match state.currNode with
  | some node => (state.heap, node)
  | none => (state.heap.allocate newNode, state.heap.limit)

/-- A token goes into a node, which is linked to the previous one. -/
def addToken (state : State) (token : List ℕ) (stop : ℕ) : State :=
  let (heap, node) := takeNode state
  let filled := setValue heap node token
  { heap :=
      match state.prevNode with
      | none => filled
      | some prev => dropRef counted (setTail filled prev node) node
    currNode := none
    prevNode := some node
    begin := stop
    n := state.n + 1 }

/-- The loop over the string, if it ends with that much fuel. -/
def tokenLoop (s delim : List ℕ) : ℕ → State → Option State
  | 0, _ => none
  | fuel + 1, state =>
      if state.begin < s.length then
        let begin := advanceWhile (fun c => isDelim c delim) (s.drop state.begin) state.begin
        let stop := advanceWhile (fun c => !isDelim c delim) (s.drop begin) begin
        if begin = stop then some { state with begin := begin }
        else tokenLoop s delim fuel
          (addToken state ((s.drop begin).take (stop - begin)) stop)
      else some state

/-- The pair that is returned, with the heap of the list. -/
structure Result where
  t0 : ℕ
  t1 : Option ℕ
  heap : Heap ListNode

/-- `Sys_tokenize`; nothing for a string that is nil. -/
def tokenize (heap : Heap ListNode) (s delim : Option (List ℕ)) : Option Result :=
  match s with
  | none | some [] => some ⟨0, none, heap⟩
  | some runes =>
      let head := heap.limit
      let created := heap.allocate newNode
      match delim with
      | none | some [] => some ⟨1, some head, setValue created head runes⟩
      | some delims =>
          (tokenLoop runes delims (runes.length + 1) ⟨created, some head, none, 0, 0⟩).map
            fun state => ⟨state.n, some head, state.heap⟩

/-- The values of a list. -/
inductive Values (heap : Heap ListNode) : Option ℕ → List (Option (List ℕ)) → Prop where
  | nil : Values heap none []
  | cons {node : ℕ} {cell : ListNode} {values : List (Option (List ℕ))}
      (live : heap.cells node = some cell) (rest : Values heap cell.tail values) :
      Values heap (some node) (cell.value :: values)

/-- The maximal runs without delimiters that are not empty. -/
noncomputable def runs (s delim : List ℕ) : List (List ℕ) :=
  (s.splitOnP fun c => c ∈ delim).filter fun run => run ≠ []

/-- The list has the runs as its values, and the number is its length. -/
structure TokenizeLaw (s delim : Option (List ℕ)) (result : Result) : Prop where
  values : Values result.heap result.t1 ((runs (s.getD []) (delim.getD [])).map some)
  length : result.t0 = (runs (s.getD []) (delim.getD [])).length

/-- There is a string of nothing but delimiters. -/
def OnlyDelimiters (s delim : Option (List ℕ)) : Prop :=
  s.getD [] ≠ [] ∧ ∀ c ∈ s.getD [], c ∈ delim.getD []

section Runs

variable {s delim rest token : List ℕ} {c : ℕ}

theorem isDelim_eq (c : ℕ) (delim : List ℕ) : isDelim c delim = decide (c ∈ delim) := by
  unfold isDelim
  split
  · simp only [List.mem_cons, List.not_mem_nil, or_false]
    grind
  · simp only [List.mem_cons, List.not_mem_nil, or_false]
    grind
  · simp only [List.mem_singleton]
    grind
  · rfl
  · rw [List.any_beq', List.contains_eq_mem]

theorem runs_nil (delim : List ℕ) : runs [] delim = [] := rfl

theorem runs_cons_delimiter (isDelimiter : c ∈ delim) :
    runs (c :: rest) delim = runs rest delim := by
  unfold runs
  rw [List.splitOnP_cons_eq_if_modifyHead, if_pos (decide_eq_true isDelimiter)]
  rfl

theorem runs_token (nonempty : token ≠ []) (isFree : ∀ c ∈ token, c ∉ delim)
    (ends : ∀ c ∈ rest.head?, c ∈ delim) :
    runs (token ++ rest) delim = token :: runs rest delim := by
  have isFreeOf : ∀ c ∈ token, decide (c ∈ delim) = false :=
    fun c member => decide_eq_false (isFree c member)
  cases rest with
  | nil =>
      unfold runs
      rw [List.append_nil, List.splitOnP_eq_singleton isFreeOf]
      exact List.filter_cons_of_pos (decide_eq_true nonempty)
  | cons c rest =>
      have isDelimiter := ends c rfl
      rw [runs_cons_delimiter isDelimiter]
      unfold runs
      rw [List.splitOnP_append_cons_of_forall_mem isFreeOf c (decide_eq_true isDelimiter) rest]
      exact List.filter_cons_of_pos (decide_eq_true nonempty)

theorem runs_drop_delimiters (s delim : List ℕ) :
    runs (s.dropWhile fun c => decide (c ∈ delim)) delim = runs s delim := by
  induction s with
  | nil => rfl
  | cons c rest ih =>
      rw [List.dropWhile_cons]
      split_ifs with isDelimiter
      · rw [ih, runs_cons_delimiter (of_decide_eq_true isDelimiter)]
      · rfl

end Runs

section Scanning

variable {test : ℕ → Bool} {s delim : List ℕ} {index : ℕ}

theorem advanceWhile_eq (test : ℕ → Bool) (runes : List ℕ) (index : ℕ) :
    advanceWhile test runes index = index + (runes.takeWhile test).length := by
  induction runes generalizing index with
  | nil => rfl
  | cons c rest ih =>
      rw [advanceWhile, List.takeWhile_cons]
      split_ifs
      · rw [ih, List.length_cons]
        omega
      · rfl

theorem drop_takeWhile (test : ℕ → Bool) (runes : List ℕ) :
    runes.drop (runes.takeWhile test).length = runes.dropWhile test := by
  induction runes with
  | nil => rfl
  | cons c rest ih =>
      rw [List.takeWhile_cons, List.dropWhile_cons]
      split_ifs
      · exact ih
      · rfl

end Scanning

section Chain

variable {base : ℕ} {heap : Heap ListNode} {tokens : List (List ℕ)} {token : List ℕ}
  {state : State} {stop : ℕ}

/-- The nodes of the tokens, each linked to the next one. -/
structure Chained (base : ℕ) (tokens : List (List ℕ)) (heap : Heap ListNode) : Prop where
  limit : heap.limit = base + tokens.length
  nodes : ∀ index token, tokens[index]? = some token → heap.cells (base + index) =
    some ⟨1, some token, if index + 1 < tokens.length then some (base + index + 1) else none⟩

/-- What the loop has built of the list. -/
inductive Built (base : ℕ) : List (List ℕ) → State → Prop where
  | start {state : State} (curr : state.currNode = some base) (prev : state.prevNode = none)
      (limit : state.heap.limit = base + 1) (node : state.heap.cells base = some newNode)
      (count : state.n = 0) : Built base [] state
  | grown {tokens : List (List ℕ)} {state : State} (curr : state.currNode = none)
      (prev : state.prevNode = some (base + (tokens.length - 1))) (nonempty : tokens ≠ [])
      (chained : Chained base tokens state.heap) (count : state.n = tokens.length) :
      Built base tokens state

theorem Chained.values (chained : Chained base tokens heap) :
    Values heap (if tokens = [] then none else some base) (tokens.map some) := by
  have fromIndex : ∀ rest before, tokens = before ++ rest →
      Values heap (if rest = [] then none else some (base + before.length)) (rest.map some) := by
    intro rest
    induction rest with
    | nil =>
        intro before _
        exact Values.nil
    | cons token rest ih =>
        intro before isSplit
        have isToken : tokens[before.length]? = some token := by
          rw [isSplit, List.getElem?_append_right (Nat.le_refl _), Nat.sub_self]
          rfl
        have node := chained.nodes before.length token isToken
        have later := ih (before ++ [token]) (by rw [isSplit, List.append_assoc]; rfl)
        rw [if_neg (List.cons_ne_nil _ _)]
        apply Values.cons node
        rw [List.length_append, List.length_singleton] at later
        have isLink : (if before.length + 1 < tokens.length then some (base + before.length + 1)
            else none) = if rest = [] then none else some (base + (before.length + 1)) := by
          rw [isSplit, List.length_append, List.length_cons]
          cases rest with
          | nil => exact if_neg (by simp)
          | cons next rest =>
              rw [if_neg (List.cons_ne_nil _ _)]
              exact if_pos (by rw [List.length_cons]; omega)
        change Values heap (if before.length + 1 < tokens.length then _ else none) _
        rwa [isLink]
  exact fromIndex tokens [] rfl

/-- The first token goes into the node that has been made for it. -/
theorem Built.addFirst (built : Built base [] state) :
    Built base [token] (addToken state token stop) := by
  cases built with
  | grown _ _ nonempty _ _ => exact absurd rfl nonempty
  | start curr prev limit node count =>
      have isAdded : addToken state token stop =
          ⟨setValue state.heap base token, none, some base, stop, state.n + 1⟩ := by
        unfold addToken takeNode
        rw [curr, prev]
      rw [isAdded]
      refine Built.grown rfl rfl (List.cons_ne_nil _ _) ⟨limit, ?_⟩ (by rw [count]; rfl)
      intro index other isOther
      cases index with
      | zero =>
          obtain rfl := Option.some.inj isOther
          exact Heap.modify_self node _
      | succ index => cases isOther

/-- What linking a new node to the last one leaves. -/
theorem link_cells {prev : ℕ} {last : ListNode} (isLast : heap.cells prev = some last)
    (isEnd : last.tail = none) :
    let linked := dropRef counted (setTail (setValue (heap.allocate newNode) heap.limit token) prev
      heap.limit) heap.limit
    linked.limit = heap.limit + 1 ∧
      linked.cells heap.limit = some ⟨1, some token, none⟩ ∧
      linked.cells prev = some { last with tail := some heap.limit } ∧
      ∀ other, other ≠ heap.limit → other ≠ prev → linked.cells other = heap.cells other := by
  intro linked
  have notNew : prev ≠ heap.limit := Nat.ne_of_lt (Heap.lt_limit isLast)
  obtain ⟨filled, isFilled⟩ :
    ∃ filled, filled = setValue (heap.allocate newNode) heap.limit token := ⟨_, rfl⟩
  obtain ⟨added, isAdded⟩ : ∃ added, added = addRef counted filled heap.limit := ⟨_, rfl⟩
  have filledNew : filled.cells heap.limit = some ⟨1, some token, none⟩ := by
    rw [isFilled]
    exact Heap.modify_self (Heap.allocate_self newNode) _
  have addedNew : added.cells heap.limit = some ⟨2, some token, none⟩ := by
    rw [isAdded]
    exact Heap.modify_self filledNew _
  have addedOther : ∀ other, other ≠ heap.limit → added.cells other = heap.cells other := by
    intro other isOther
    rw [isAdded, addRef, Heap.modify_other isOther, isFilled, setValue,
      Heap.modify_other isOther, Heap.allocate_other isOther]
  have addedPrev : added.cells prev = some last := by
    rw [addedOther prev notNew, isLast]
  have isLinked : linked = dropRef counted
      (added.modify prev fun node => { node with tail := some heap.limit }) heap.limit := by
    change dropRef counted (setTail (setValue _ _ _) _ _) _ = _
    rw [← isFilled, setTail, ← isAdded]
    rw [addedPrev, Option.bind_some, isEnd, Option.toList_none, release_nil]
  rw [isLinked]
  refine ⟨?_, ?_, ?_, ?_⟩
  · rw [isAdded, isFilled]
    rfl
  · exact Heap.modify_self ((Heap.modify_other notNew.symm _).trans addedNew) _
  · rw [dropRef, Heap.modify_other notNew]
    exact Heap.modify_self addedPrev _
  · intro other notLimit notPrev
    rw [dropRef, Heap.modify_other notLimit, Heap.modify_other notPrev, addedOther other notLimit]

theorem Built.addNext (built : Built base tokens state) (nonempty : tokens ≠ []) :
    Built base (tokens ++ [token]) (addToken state token stop) := by
  cases built with
  | start _ _ _ _ _ => exact absurd rfl nonempty
  | grown curr prev _ chained count =>
      have pos := List.length_pos_iff.mpr nonempty
      have isLast : tokens[tokens.length - 1]? = some (tokens.getLast nonempty) := by
        rw [← List.getLast?_eq_getElem?, List.getLast?_eq_getLast_of_ne_nil nonempty]
      have lastNode := chained.nodes _ _ isLast
      rw [if_neg (by omega)] at lastNode
      obtain ⟨limit, newCell, prevCell, others⟩ := @link_cells _ token _ _ lastNode rfl
      have isAdded : addToken state token stop =
          ⟨dropRef counted (setTail (setValue (state.heap.allocate newNode) state.heap.limit token)
            (base + (tokens.length - 1)) state.heap.limit) state.heap.limit, none,
            some state.heap.limit, stop, state.n + 1⟩ := by
        unfold addToken takeNode
        rw [curr, prev]
      rw [isAdded]
      have isLength : (tokens ++ [token]).length = tokens.length + 1 := List.length_append
      refine Built.grown rfl ?_ (List.append_ne_nil_of_right_ne_nil _ (List.cons_ne_nil _ _)) ?_ ?_
      · rw [chained.limit, isLength, Nat.add_sub_cancel]
      · refine ⟨?_, ?_⟩
        · rw [isLength, ← Nat.add_assoc, ← chained.limit]
          exact limit
        · intro index other isOther
          have limitIs := chained.limit
          rcases Nat.lt_trichotomy index tokens.length with inside | same | beyond
          · rw [List.getElem?_append_left inside] at isOther
            by_cases isEnd : index = tokens.length - 1
            · subst isEnd
              have same := Option.some.inj (isOther.symm.trans isLast)
              rw [prevCell, same, isLength, if_pos (by omega), limitIs]
              have next : base + (tokens.length - 1) + 1 = base + tokens.length := by omega
              rw [next]
            · rw [others _ (by omega) (by omega), chained.nodes index other isOther, isLength,
                if_pos (by omega), if_pos (by omega)]
          · subst same
            rw [List.getElem?_append_right (Nat.le_refl _), Nat.sub_self] at isOther
            obtain rfl := Option.some.inj isOther
            rw [isLength, if_neg (by omega), ← limitIs]
            exact newCell
          · rw [List.getElem?_eq_none (by omega)] at isOther
            cases isOther
      · rw [isLength, count]

theorem Built.setBegin (built : Built base tokens state) (begin : ℕ) :
    Built base tokens { state with begin := begin } := by
  cases built with
  | start curr prev limit node count => exact Built.start curr prev limit node count
  | grown curr prev nonempty chained count => exact Built.grown curr prev nonempty chained count

theorem Built.add (built : Built base tokens state) :
    Built base (tokens ++ [token]) (addToken state token stop) := by
  by_cases empty : tokens = []
  · subst empty
    exact built.addFirst
  · exact built.addNext empty

end Chain

section Loop

variable {base : ℕ} {s delim : List ℕ} {tokens : List (List ℕ)} {state : State}

theorem head_dropWhile {test : ℕ → Bool} {runes : List ℕ} :
    ∀ c ∈ (runes.dropWhile test).head?, test c = false := by
  intro c isHead
  have notHead := List.head?_dropWhile_not test runes
  rw [Option.mem_def.mp isHead] at notHead
  simpa using notHead

/-- There is a token as long as there is something but delimiters. -/
theorem token_eq_nil_iff {u rest token : List ℕ}
    (isRest : rest = u.dropWhile fun c => isDelim c delim)
    (isToken : token = rest.takeWhile fun c => !isDelim c delim) : token = [] ↔ rest = [] := by
  constructor
  · intro empty
    cases rest with
    | nil => rfl
    | cons c rest =>
        have notDelimiter : isDelim c delim = false :=
          @head_dropWhile _ u c (by rw [← isRest]; rfl)
        rw [isToken, List.takeWhile_cons, notDelimiter] at empty
        cases empty
  · rintro rfl
    exact isToken

/-- A string is its delimiters, the first token, and what follows it. -/
theorem runs_eq (u delim : List ℕ) {rest token : List ℕ}
    (isRest : rest = u.dropWhile fun c => isDelim c delim)
    (isToken : token = rest.takeWhile fun c => !isDelim c delim) :
    runs u delim = if token = [] then []
      else token :: runs (rest.dropWhile fun c => !isDelim c delim) delim := by
  have isSplit : token ++ rest.dropWhile (fun c => !isDelim c delim) = rest := by
    rw [isToken, List.takeWhile_append_dropWhile]
  have sameRuns : runs u delim = runs rest delim := by
    simp only [isRest, isDelim_eq]
    exact (runs_drop_delimiters u delim).symm
  rw [sameRuns]
  split_ifs with empty
  · rw [(token_eq_nil_iff isRest isToken).mp empty]
    rfl
  · have isFree : ∀ c ∈ token, c ∉ delim := by
      intro c member
      rw [isToken] at member
      have passes := List.mem_takeWhile_imp member
      simpa [isDelim_eq] using passes
    have ends : ∀ c ∈ (rest.dropWhile fun c => !isDelim c delim).head?, c ∈ delim := by
      intro c isHead
      have fails := head_dropWhile c isHead
      simpa [isDelim_eq] using fails
    have isRuns := runs_token empty isFree ends
    rwa [isSplit] at isRuns

/-- The rest of the tokens is found. -/
theorem Built.loop {fuel : ℕ} (built : Built base tokens state) (inside : state.begin ≤ s.length)
    (enough : s.length < fuel + state.begin) :
    ∃ later, tokenLoop s delim fuel state = some later ∧
      Built base (tokens ++ runs (s.drop state.begin) delim) later := by
  induction fuel generalizing tokens state with
  | zero => omega
  | succ fuel ih =>
      rcases Nat.lt_or_ge state.begin s.length with more | full
      · obtain ⟨rest, isRest⟩ : ∃ rest,
          rest = (s.drop state.begin).dropWhile fun c => isDelim c delim := ⟨_, rfl⟩
        obtain ⟨token, isToken⟩ : ∃ token, token = rest.takeWhile fun c => !isDelim c delim :=
          ⟨_, rfl⟩
        obtain ⟨begin, isBegin⟩ : ∃ begin, begin =
            advanceWhile (fun c => isDelim c delim) (s.drop state.begin) state.begin := ⟨_, rfl⟩
        have dropBegin : s.drop begin = rest := by
          rw [isBegin, advanceWhile_eq, ← List.drop_drop, drop_takeWhile, isRest]
        have isStop : advanceWhile (fun c => !isDelim c delim) (s.drop begin) begin =
            begin + token.length := by
          rw [advanceWhile_eq, dropBegin, isToken]
        have isTaken : (s.drop begin).take (begin + token.length - begin) = token := by
          rw [Nat.add_sub_cancel_left, dropBegin]
          exact List.prefix_iff_eq_take.mp (isToken ▸ List.takeWhile_prefix _) |>.symm
        rw [runs_eq (s.drop state.begin) delim isRest isToken]
        unfold tokenLoop
        rw [if_pos more]
        dsimp only
        rw [← isBegin, isStop, isTaken]
        by_cases empty : token = []
        · rw [if_pos empty, List.append_nil, empty, List.length_nil, Nat.add_zero, if_pos rfl]
          exact ⟨_, rfl, built.setBegin begin⟩
        · have pos := List.length_pos_iff.mpr empty
          have beginLe : state.begin ≤ begin := by
            rw [isBegin, advanceWhile_eq]
            exact Nat.le_add_right _ _
          have tokenLe : begin + token.length ≤ s.length := by
            have isPart : token.length ≤ (s.drop begin).length := by
              rw [dropBegin, isToken]
              exact (List.takeWhile_prefix _).length_le
            rw [List.length_drop] at isPart
            omega
          rw [if_neg empty, if_neg (by omega)]
          have laterBuilt : Built base (tokens ++ [token])
              (addToken state token (begin + token.length)) := built.add
          have isBeginLater : (addToken state token (begin + token.length)).begin =
            begin + token.length := rfl
          obtain ⟨later, isLater, builtLater⟩ := ih laterBuilt tokenLe (by omega)
          have dropStop : s.drop (begin + token.length) =
              rest.dropWhile fun c => !isDelim c delim := by
            rw [← List.drop_drop, dropBegin, isToken, drop_takeWhile]
          rw [isBeginLater, dropStop, List.append_assoc] at builtLater
          exact ⟨later, isLater, builtLater⟩
      · refine ⟨state, ?_, ?_⟩
        · unfold tokenLoop
          rw [if_neg (by omega)]
        · rw [List.drop_eq_nil_of_le full, runs_nil, List.append_nil]
          exact built

end Loop

section Pair

variable {heap : Heap ListNode} {s delim : Option (List ℕ)} {runes delims : List ℕ}

theorem runs_no_delimiters (nonempty : runes ≠ []) : runs runes [] = [runes] := by
  have isRuns := @runs_token [] [] runes nonempty (fun c _ => List.not_mem_nil)
    (fun c isHead => by cases isHead)
  rwa [List.append_nil, runs_nil] at isRuns

theorem runs_eq_nil_iff : runs runes delims = [] ↔ ∀ c ∈ runes, c ∈ delims := by
  have onlyDelimiters : (runes.dropWhile fun c => isDelim c delims) = [] ↔
      ∀ c ∈ runes, c ∈ delims := by
    simp only [List.dropWhile_eq_nil_iff, isDelim_eq, decide_eq_true_eq]
  rw [runs_eq runes delims rfl rfl, ← onlyDelimiters, ← token_eq_nil_iff rfl rfl]
  split_ifs with empty
  · exact ⟨fun _ => empty, fun _ => rfl⟩
  · exact ⟨nofun, fun isEmpty => absurd isEmpty empty⟩

/-- No string and no delimiters. -/
theorem nil_law (empty : s.getD [] = []) :
    TokenizeLaw s delim ⟨0, none, heap⟩ ↔ ¬ OnlyDelimiters s delim := by
  refine iff_of_true ⟨?_, ?_⟩ fun only => only.1 empty
  · rw [empty]
    exact Values.nil
  · rw [empty]
    rfl

/-- A string without delimiters is one token. -/
theorem whole_law (nonempty : runes ≠ []) (empty : delim.getD [] = []) :
    TokenizeLaw (some runes) delim
        ⟨1, some heap.limit, setValue (heap.allocate newNode) heap.limit runes⟩ ↔
      ¬ OnlyDelimiters (some runes) delim := by
  have isRuns : runs ((some runes).getD []) (delim.getD []) = [runes] := by
    rw [empty]
    exact runs_no_delimiters nonempty
  refine iff_of_true ⟨?_, ?_⟩ ?_
  · rw [isRuns]
    exact Values.cons (Heap.modify_self (Heap.allocate_self newNode) _) Values.nil
  · rw [isRuns]
    rfl
  · rintro ⟨-, only⟩
    obtain ⟨c, rest, rfl⟩ := List.exists_cons_of_ne_nil nonempty
    have isDelimiter := only c List.mem_cons_self
    rw [empty] at isDelimiter
    cases isDelimiter

theorem tokenLoop_law (nonempty : runes ≠ []) :
    ∃ state, tokenLoop runes delims (runes.length + 1)
        ⟨heap.allocate newNode, some heap.limit, none, 0, 0⟩ = some state ∧
      (TokenizeLaw (some runes) (some delims) ⟨state.n, some heap.limit, state.heap⟩ ↔
        ¬ OnlyDelimiters (some runes) (some delims)) := by
  have start : Built heap.limit []
      ⟨heap.allocate newNode, some heap.limit, none, 0, 0⟩ :=
    Built.start rfl rfl rfl (Heap.allocate_self newNode) rfl
  obtain ⟨state, ended, built⟩ := @Built.loop _ runes delims [] _ (runes.length + 1) start
    (Nat.zero_le _) (Nat.lt_succ_self _)
  have isRuns : runs ((some runes).getD []) ((some delims).getD []) = runs runes delims := rfl
  have onlyIff : OnlyDelimiters (some runes) (some delims) ↔ runs runes delims = [] := by
    rw [runs_eq_nil_iff]
    exact and_iff_right nonempty
  refine ⟨state, ended, ?_⟩
  rw [List.nil_append] at built
  change Built heap.limit (runs runes delims) state at built
  rw [onlyIff]
  obtain ⟨tokens, isTokens⟩ : ∃ tokens, runs runes delims = tokens := ⟨_, rfl⟩
  rw [isTokens] at built isRuns ⊢
  cases built with
  | start curr prev limit node count =>
      -- The node that has been made for the first token is in the list.
      refine iff_of_false (fun law => ?_) fun notNil => notNil rfl
      have values := law.values
      rw [isRuns] at values
      cases values
  | grown curr prev hasTokens chained count =>
      refine iff_of_true ⟨?_, ?_⟩ hasTokens
      · have values := chained.values
        rw [if_neg hasTokens] at values
        rwa [isRuns]
      · rw [isRuns]
        exact count

/-- The pair is as it should be unless there is nothing but delimiters in the string. -/
theorem tokenize_law_iff (heap : Heap ListNode) (s delim : Option (List ℕ)) :
    ∃ result, tokenize heap s delim = some result ∧
      (TokenizeLaw s delim result ↔ ¬ OnlyDelimiters s delim) := by
  rcases s with _ | _ | ⟨c, rest⟩
  · exact ⟨_, rfl, nil_law rfl⟩
  · exact ⟨_, rfl, nil_law rfl⟩
  · have nonempty := List.cons_ne_nil c rest
    rcases delim with _ | _ | ⟨d, delims⟩
    · exact ⟨_, rfl, whole_law nonempty rfl⟩
    · exact ⟨_, rfl, whole_law nonempty rfl⟩
    · obtain ⟨state, ended, law⟩ := @tokenLoop_law heap (c :: rest) (d :: delims) nonempty
      refine ⟨⟨state.n, some heap.limit, state.heap⟩, ?_, law⟩
      unfold tokenize
      dsimp only
      rw [ended]
      rfl

/-- The list for the string "  " has an element, which is nil. -/
theorem tokenize_spaces :
    ∃ result, tokenize Heap.empty (some [32, 32]) (some [32]) = some result ∧
      ¬ TokenizeLaw (some [32, 32]) (some [32]) result := by
  obtain ⟨state, ended, law⟩ := @tokenLoop_law Heap.empty [32, 32] [32] (List.cons_ne_nil _ _)
  refine ⟨⟨state.n, some 0, state.heap⟩, ?_, ?_⟩
  · unfold tokenize
    dsimp only
    have isState : tokenLoop [32, 32] [32] ([32, 32].length + 1)
        ⟨Heap.empty.allocate newNode, some Heap.empty.limit, none, 0, 0⟩ = some state := ended
    rw [isState]
    rfl
  · intro holds
    apply law.mp holds
    exact ⟨List.cons_ne_nil _ _, by decide⟩

end Pair

end Disvm.Tokenizing
