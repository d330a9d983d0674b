import Disvm.BoundedOutput
import Disvm.Utf8
import Mathlib.Data.List.TakeWhile

/-!
# Formatted output

A format is expanded into a buffer, item by item: a character as it is, and a specifier by
`snprintf` in the room that is left.  When there is no room before an item the expansion is
given up, and it is done again from the start in a larger buffer.  The last error message of
the VM is gone when it has been printed.
-/

namespace Disvm.Printf

open ByteMemory BoundedOutput Utf8

/-- The bytes before the first NUL. -/
def cString (bytes : List UInt8) : List UInt8 :=
  bytes.takeWhile fun byte => byte != 0

/-- The bytes of an ASCII text. -/
def ascii (chars : List Char) : List UInt8 :=
  chars.map fun char => UInt8.ofNat char.toNat

/-- The part of `vm_t` that is used. -/
structure Vm where
  lastSyscallErrorMessage : List UInt8
  deriving DecidableEq, Repr

def popSyscallErrorMessage (vm : Vm) : List UInt8 × Vm :=
  (cString vm.lastSyscallErrorMessage, ⟨vm.lastSyscallErrorMessage.set 0 0⟩)

/-- What `snprintf` is given besides the format. -/
inductive Argument where
  | none
  | word (value : BitVec 32)
  | big (value : BitVec 64)
  | real (bits : BitVec 64)
  | string (chars : List UInt8)
  | object (refCount type : ℕ)

/-- The untruncated texts of `snprintf`. -/
structure Snprintf where
  text : List UInt8 → Argument → List UInt8
  string : ∀ chars, text (ascii ['%', 's']) (.string chars) = cString chars

/-- The arguments are in a frame, at offsets from its base.  `str` and `alloc` are what a
pointer to a string and a pointer to an object refer to, nothing for nil. -/
structure Environment where
  snprintf : Snprintf
  frame : Memory
  str : ℕ → Option (List UInt8)
  alloc : ℕ → Option (ℕ × ℕ)

structure Call where
  environment : Environment
  vm : Vm
  msgFmt : List ℕ
  supported : ∀ rune ∈ msgFmt, rune ≤ maxSupportedCodepoint
  msgArgs : ℕ

/-- The call when the VM has changed. -/
def Call.again (call : Call) (vm : Vm) : Call :=
  { call with vm := vm }

namespace Environment

variable (environment : Environment)

def word (offset : ℕ) : BitVec 32 :=
  BitVec.ofNat 32 (readWord environment.frame offset)

def big (offset : ℕ) : BitVec 64 :=
  BitVec.ofNat 64
    (readWord environment.frame offset + 2 ^ 32 * readWord environment.frame (offset + 4))

/-- `%H`. -/
def objectText (offset : ℕ) : List UInt8 :=
  environment.snprintf.text (ascii ['%', 'u', '.', '%', '#', '0', '8', 'x'])
    (match environment.alloc (readWord environment.frame offset) with
    | none => .object (2 ^ 32 - 1) 0
    | some (refCount, type) => .object refCount type)

end Environment

/-- The first multiple of the size from the offset on. -/
def alignFor (size offset : ℕ) : ℕ :=
  offset + (size - offset % size) % size

/-- What a verb gives to `snprintf`. -/
inductive Printed where
  | nothing
  | text (bytes : List UInt8)
  | errorMessage

/-- A character of a specifier: the specifier goes on, or the character is its verb. -/
inductive Directive where
  | more (format : List UInt8) (bigFlag unsignedFlag : Bool) (msgArgs : ℕ)
  | verb (printed : Printed) (msgArgs : ℕ)

def directive (environment : Environment) (format : List UInt8) (bigFlag unsignedFlag : Bool)
    (msgArgs c : ℕ) : Directive :=
  let text := environment.snprintf.text
  if c = 'b'.toNat then .more (format ++ ascii ['l', 'l']) true unsignedFlag msgArgs
  else if c = '*'.toNat then
    .more (format ++ text (ascii ['%', 'd']) (.word (environment.word msgArgs))) bigFlag
      unsignedFlag (msgArgs + 4)
  else if c = 'u'.toNat then .more format bigFlag true msgArgs
  else if c = '%'.toNat then .verb (.text (text (ascii ['%', '%', '%', '%']) .none)) msgArgs
  else if c ∈ ['f', 'e', 'E', 'g', 'G'].map Char.toNat then
    let aligned := alignFor 8 msgArgs
    .verb (.text (text (cString (format ++ [UInt8.ofNat c])) (.real (environment.big aligned))))
      (aligned + 8)
  else if c ∈ ['d', 'o', 'x', 'X', 'c'].map Char.toNat then
    let letter := if c = 'd'.toNat ∧ unsignedFlag = true then 'u'.toNat else c
    let full := cString (format ++ [UInt8.ofNat letter])
    if bigFlag then
      let aligned := alignFor 8 msgArgs
      .verb (.text (text full (.big (environment.big aligned)))) (aligned + 8)
    else .verb (.text (text full (.word (environment.word msgArgs)))) (msgArgs + 4)
  -- An assertion says that 'q' is not implemented; it goes on as 's'.
  else if c ∈ ['q', 's'].map Char.toNat then
    match environment.str (readWord environment.frame msgArgs) with
    | none => .verb .nothing (msgArgs + 4)
    | some chars => .verb (.text (text (ascii ['%', 's']) (.string chars))) (msgArgs + 4)
  else if c = 'r'.toNat then .verb .errorMessage msgArgs
  else if c = 'H'.toNat then .verb (.text (environment.objectText msgArgs)) (msgArgs + 4)
  else .more (format ++ [UInt8.ofNat c]) bigFlag unsignedFlag msgArgs

namespace Printed

def piece (environment : Environment) (vm : Vm) : Printed → Piece
  | .nothing => .skip
  | .text bytes => .cut bytes
  | .errorMessage =>
      .cut (environment.snprintf.text (ascii ['%', 's'])
        (.string (popSyscallErrorMessage vm).1))

def popsMessage : Printed → Bool
  | .errorMessage => true
  | _ => false

end Printed

def vmAfter (popsMessage : Bool) (vm : Vm) : Vm :=
  if popsMessage then (popSyscallErrorMessage vm).2 else vm

structure State where
  vm : Vm
  msgArgs : ℕ
  out : Output

/-- Which of the two loops over the format is running. -/
inductive Mode where
  | text
  | specifier (format : List UInt8) (bigFlag unsignedFlag : Bool)

def startSpecifier : Mode :=
  .specifier (ascii ['%']) false false

/-- The loops of `printf_to_buffer`, and whether the format has been expanded to its end. -/
def printfLoop (environment : Environment) (bufferSize : ℕ) :
    List ℕ → Mode → State → Bool × State
  | [], _, state => (true, state)
  | c :: rest, .text, state =>
      if bufferSize - 1 ≤ state.out.curr then (false, state)
      else if c = '%'.toNat then printfLoop environment bufferSize rest startSpecifier state
      else printfLoop environment bufferSize rest .text
        { state with out := state.out.put bufferSize (.whole (encode c)) }
  | c :: rest, .specifier format bigFlag unsignedFlag, state =>
      match directive environment format bigFlag unsignedFlag state.msgArgs c with
      | .more format bigFlag unsignedFlag msgArgs =>
          printfLoop environment bufferSize rest (.specifier format bigFlag unsignedFlag)
            { state with msgArgs := msgArgs }
      | .verb printed msgArgs =>
          printfLoop environment bufferSize rest .text
            { vm := vmAfter printed.popsMessage state.vm
              msgArgs := msgArgs
              out := state.out.put bufferSize (printed.piece environment state.vm) }

/-- The result, the VM and the memory from the buffer on. -/
structure Run where
  written : BitVec 32
  vm : Vm
  memory : Memory
  extent : ℕ

/-- The bytes that are taken from the buffer. -/
def Run.bytes (run : Run) : List UInt8 :=
  firstBytes run.memory run.written.toInt.toNat

def printfToBuffer (call : Call) (bufferSize : ℕ) (buffer : Memory) : Run :=
  let result := printfLoop call.environment bufferSize call.msgFmt .text
    ⟨call.vm, call.msgArgs, ⟨buffer, 0, 0⟩⟩
  { written := if result.1 then BitVec.ofNat 32 result.2.out.curr else -1
    vm := result.2.vm
    memory := result.2.out.memory
    extent := result.2.out.extent }

/-- `resize` to twice the size. -/
def resize (size : ℕ) (memory : Memory) : Memory :=
  fill ⟨size, size⟩ 0 memory

/-- The loop of `printf_to_dynamic_buffer`. -/
def printfToDynamicBuffer : ℕ → Call → ℕ → Memory → Option Run
  | 0, _, _, _ => none
  | fuel + 1, call, size, buffer =>
      let run := printfToBuffer call size buffer
      if run.written = -1 then
        printfToDynamicBuffer fuel (call.again run.vm) (2 * size) (resize size run.memory)
      else some run

/-- A new buffer of zeros. -/
def zeroed (size : ℕ) (beyond : Memory) : Memory :=
  fill ⟨0, size⟩ 0 beyond

/-- `printf_to_fd`, with the size of the static buffer. -/
def printfToFd (fuel : ℕ) (call : Call) (size : ℕ) (beyond : Memory) : Option Run :=
  let run := printfToBuffer call size (zeroed size beyond)
  if 0 ≤ run.written.toInt then some run
  else printfToDynamicBuffer fuel (call.again run.vm) (2 * size) (zeroed (2 * size) beyond)

/-- `Sys_print` and `Sys_fprint`. -/
def sysPrint (fuel : ℕ) (call : Call) (beyond : Memory) : Option Run :=
  printfToFd fuel call 1024 beyond

/-- `Sys_sprint` has the two buffers of `printf_to_fd`, at another size. -/
def sysSprint (fuel : ℕ) (call : Call) (beyond : Memory) : Option Run :=
  printfToFd fuel call 128 beyond

def sysAprint (fuel : ℕ) (call : Call) (beyond : Memory) : Option Run :=
  printfToDynamicBuffer fuel call 128 (zeroed 128 beyond)

structure Item where
  piece : Piece
  popsMessage : Bool

def piecesOf (items : List Item) : List Piece :=
  items.map Item.piece

/-- The items of a format. -/
def itemsOf (environment : Environment) : List ℕ → Mode → Vm → ℕ → List Item
  | [], .text, _, _ => []
  | [], .specifier _ _ _, _, _ => [⟨.skip, false⟩]
  | c :: rest, .text, vm, msgArgs =>
      if c = '%'.toNat then itemsOf environment rest startSpecifier vm msgArgs
      else ⟨.whole (encode c), false⟩ :: itemsOf environment rest .text vm msgArgs
  | c :: rest, .specifier format bigFlag unsignedFlag, vm, msgArgs =>
      match directive environment format bigFlag unsignedFlag msgArgs c with
      | .more format bigFlag unsignedFlag msgArgs =>
          itemsOf environment rest (.specifier format bigFlag unsignedFlag) vm msgArgs
      | .verb printed msgArgs =>
          ⟨printed.piece environment vm, printed.popsMessage⟩ ::
            itemsOf environment rest .text (vmAfter printed.popsMessage vm) msgArgs

namespace Call

def items (call : Call) : List Item :=
  itemsOf call.environment call.msgFmt .text call.vm call.msgArgs

/-- What a buffer without a bound receives. -/
def expansion (call : Call) : List UInt8 :=
  textOf (piecesOf call.items)

end Call

/-- The buffer is kept to, and the result is -1 or the size of the complete expansion. -/
structure BufferLaw (call : Call) (size : ℕ) (buffer : Memory) : Prop where
  inside : (printfToBuffer call size buffer).extent ≤ size
  complete : (printfToBuffer call size buffer).written = -1 ∨
    ∃ count < size, (printfToBuffer call size buffer).written.toInt = count ∧
      firstBytes (printfToBuffer call size buffer).memory count = call.expansion

/-- Whatever the size is, the law holds of the buffer, and the expansion is printed. -/
structure PrintfLaw (call : Call) : Prop where
  buffer : ∀ size buffer, 1 < size → BufferLaw call size buffer
  fixed : ∀ size beyond, 1 < size →
    ∃ fuel run, printfToFd fuel call size beyond = some run ∧ run.bytes = call.expansion
  growing : ∀ size buffer, 1 < size →
    ∃ fuel run, printfToDynamicBuffer fuel call size buffer = some run ∧
      run.bytes = call.expansion

/-- The items fit a buffer: no character goes over its end, and if there is room before the
last item, that is complete, and the count is one that a word holds, or that is -1 as a word. -/
structure Fits (size : ℕ) (items : List Item) : Prop where
  inside : Inside size 0 (piecesOf items)
  ends : Reaches size 0 (piecesOf items) →
    (textOf (piecesOf items)).length % 2 ^ 32 = 2 ^ 32 - 1 ∨
      (textOf (piecesOf items)).length < 2 ^ 31 ∧ EndsComplete size (piecesOf items)

/-- There is no size at which the last item is cut off or a character goes over the end. -/
def EndsSafely : Piece → Prop
  | .whole bytes => bytes.length ≤ 1
  | .cut bytes => bytes = [] ∨ bytes = [0]
  | .skip => True

/-- The items fit every buffer, and stay the same when the format is expanded again. -/
structure Robust (items : List Item) : Prop where
  short : (textOf (piecesOf items)).length < 2 ^ 31
  characters : ∀ bytes, .whole bytes ∈ piecesOf items → bytes.length ≤ 2
  last : ∀ piece, (piecesOf items).getLast? = some piece → EndsSafely piece
  messages : ∀ item ∈ items, item.popsMessage = true → item.piece.bytes = []

section Message

variable {environment : Environment} {vm : Vm} {bytes : List UInt8}

theorem cString_set (bytes : List UInt8) : cString (bytes.set 0 0) = [] := by
  cases bytes <;> rfl

theorem pop_pop (vm : Vm) : popSyscallErrorMessage (popSyscallErrorMessage vm).2 =
    ([], (popSyscallErrorMessage vm).2) := by
  unfold popSyscallErrorMessage
  rw [cString_set, List.set_set]

theorem nul_not_mem_cString : (0 : UInt8) ∉ cString bytes := by
  intro member
  have isByte := (List.all_eq_true.mp List.all_takeWhile) 0 member
  exact absurd isByte (by decide)

theorem messagePiece (environment : Environment) (vm : Vm) :
    Printed.errorMessage.piece environment vm =
      .cut (cString (popSyscallErrorMessage vm).1) :=
  congrArg Piece.cut (environment.snprintf.string _)

theorem vmAfter_pop (popsMessage : Bool) (vm : Vm) :
    vmAfter popsMessage (popSyscallErrorMessage vm).2 = (popSyscallErrorMessage vm).2 := by
  unfold vmAfter
  split_ifs
  · rw [pop_pop]
  · rfl

/-- An item when the message has been printed before. -/
def Item.erase (item : Item) : Item :=
  if item.popsMessage then ⟨.cut [], true⟩ else item

theorem erase_item (printed : Printed) (environment : Environment) (vm : Vm) :
    (⟨printed.piece environment (popSyscallErrorMessage vm).2, printed.popsMessage⟩ : Item) =
      (⟨printed.piece environment vm, printed.popsMessage⟩ : Item).erase := by
  cases printed with
  | nothing => rfl
  | text bytes => rfl
  | errorMessage =>
      rw [messagePiece, pop_pop]
      rfl

/-- The items of a format for a VM whose message is gone. -/
theorem itemsOf_pop (fmt : List ℕ) (mode : Mode) (vm : Vm) (msgArgs : ℕ) :
    itemsOf environment fmt mode (popSyscallErrorMessage vm).2 msgArgs =
      (itemsOf environment fmt mode vm msgArgs).map Item.erase := by
  induction fmt generalizing mode vm msgArgs with
  | nil => cases mode <;> rfl
  | cons c rest ih =>
      cases mode with
      | text =>
          unfold itemsOf
          split_ifs
          · exact ih _ _ _
          · rw [List.map_cons, ih]
            rfl
      | specifier format bigFlag unsignedFlag =>
          unfold itemsOf
          split
          · exact ih _ _ _
          · rename_i printed msgArgs _
            rw [List.map_cons, ← erase_item, vmAfter_pop]
            congr 1
            cases isMessage : printed.popsMessage with
            | false => exact ih _ _ _
            | true =>
                change _ = (itemsOf environment rest .text (popSyscallErrorMessage vm).2 _).map _
                rw [← ih, pop_pop]

/-- A message is a cut piece without a NUL. -/
theorem message_cut {fmt : List ℕ} {mode : Mode} {msgArgs : ℕ} {item : Item}
    (member : item ∈ itemsOf environment fmt mode vm msgArgs)
    (isMessage : item.popsMessage = true) :
    ∃ bytes, item.piece = .cut bytes ∧ 0 ∉ bytes := by
  induction fmt generalizing mode vm msgArgs with
  | nil =>
      cases mode with
      | text => cases member
      | specifier format bigFlag unsignedFlag =>
          obtain rfl := List.mem_singleton.mp member
          cases isMessage
  | cons c rest ih =>
      cases mode with
      | text =>
          unfold itemsOf at member
          split_ifs at member
          · exact ih member
          · rcases List.mem_cons.mp member with rfl | member
            · cases isMessage
            · exact ih member
      | specifier format bigFlag unsignedFlag =>
          unfold itemsOf at member
          split at member
          · exact ih member
          · rename_i printed msgArgs _
            rcases List.mem_cons.mp member with rfl | member
            · cases printed with
              | nothing => cases isMessage
              | text bytes => cases isMessage
              | errorMessage => exact ⟨_, messagePiece environment vm, nul_not_mem_cString⟩
            · exact ih member

end Message

/-- The VM after the items that are put. -/
def vmAfterAll (size : ℕ) : List Item → ℕ → Vm → Vm
  | [], _, vm => vm
  | item :: items, start, vm =>
      if size - 1 ≤ start then vm
      else vmAfterAll size items (start + item.piece.bytes.length) (vmAfter item.popsMessage vm)

section Loop

variable {environment : Environment} {size : ℕ} {fmt : List ℕ} {mode : Mode} {state : State}

/-- The loop puts the items of the format. -/
structure Puts (size : ℕ) (items : List Item) (out : Output) (vm : Vm)
    (result : Bool × State) : Prop where
  isDone : result.1 = (putAll size (piecesOf items) out).1
  isOut : result.2.out = (putAll size (piecesOf items) out).2
  isVm : result.2.vm = vmAfterAll size items out.curr vm

theorem Puts.cons {item : Item} {items : List Item} {out : Output} {vm : Vm}
    {result : Bool × State} (room : out.curr + 1 < size)
    (puts : Puts size items (out.put size item.piece) (vmAfter item.popsMessage vm) result) :
    Puts size (item :: items) out vm result := by
  have isPut : putAll size (piecesOf (item :: items)) out =
      putAll size (piecesOf items) (out.put size item.piece) := putAll_room room
  constructor
  · rw [isPut]
    exact puts.isDone
  · rw [isPut]
    exact puts.isOut
  · rw [vmAfterAll, if_neg (by omega), puts.isVm, put_curr]

theorem Puts.full {items : List Item} (full : size - 1 ≤ state.out.curr) (nonempty : items ≠ []) :
    Puts size items state.out state.vm (false, state) := by
  obtain ⟨item, rest, rfl⟩ := List.exists_cons_of_ne_nil nonempty
  have isFull : putAll size (piecesOf (item :: rest)) state.out = (false, state.out) :=
    putAll_full full
  constructor
  · rw [isFull]
  · rw [isFull]
  · rw [vmAfterAll, if_pos full]

/-- A specifier is an item even if the format ends in it. -/
theorem itemsOf_specifier_ne_nil {format : List UInt8} {bigFlag unsignedFlag : Bool} {vm : Vm}
    {msgArgs : ℕ} :
    itemsOf environment fmt (.specifier format bigFlag unsignedFlag) vm msgArgs ≠ [] := by
  induction fmt generalizing format bigFlag unsignedFlag msgArgs with
  | nil => exact List.cons_ne_nil _ _
  | cons c rest ih =>
      unfold itemsOf
      split
      · exact ih
      · exact List.cons_ne_nil _ _

theorem printfLoop_puts (checked : mode = .text ∨ state.out.curr + 1 < size) :
    Puts size (itemsOf environment fmt mode state.vm state.msgArgs) state.out state.vm
      (printfLoop environment size fmt mode state) := by
  induction fmt generalizing mode state with
  | nil =>
      cases mode with
      | text => exact ⟨rfl, rfl, rfl⟩
      | specifier format bigFlag unsignedFlag =>
          have room := checked.resolve_left (by rintro ⟨⟩)
          exact Puts.cons room ⟨rfl, rfl, rfl⟩
  | cons c rest ih =>
      cases mode with
      | text =>
          unfold printfLoop itemsOf
          rcases Nat.lt_or_ge (state.out.curr + 1) size with room | full
          · have notFull : ¬ size - 1 ≤ state.out.curr := by omega
            rw [if_neg notFull]
            split_ifs
            · exact ih (Or.inr room)
            · have puts := @ih .text
                { state with out := state.out.put size (.whole (encode c)) } (Or.inl rfl)
              exact Puts.cons room puts
          · have isFull : size - 1 ≤ state.out.curr := by omega
            rw [if_pos isFull]
            apply Puts.full isFull
            split_ifs
            · exact itemsOf_specifier_ne_nil
            · exact List.cons_ne_nil _ _
      | specifier format bigFlag unsignedFlag =>
          have room := checked.resolve_left (by rintro ⟨⟩)
          unfold printfLoop itemsOf
          cases directive environment format bigFlag unsignedFlag state.msgArgs c with
          | more format bigFlag unsignedFlag msgArgs =>
              exact @ih (.specifier format bigFlag unsignedFlag)
                { state with msgArgs := msgArgs } (Or.inr room)
          | verb printed msgArgs =>
              have puts := @ih .text
                { vm := vmAfter printed.popsMessage state.vm
                  msgArgs := msgArgs
                  out := state.out.put size (printed.piece environment state.vm) } (Or.inl rfl)
              exact Puts.cons room puts

end Loop

section OneBuffer

variable {call : Call} {size : ℕ} {buffer : Memory}

/-- What a call leaves, by the items of its format. -/
structure Expanded (call : Call) (size : ℕ) (buffer : Memory) : Prop where
  written : (printfToBuffer call size buffer).written =
    if Reaches size 0 (piecesOf call.items) then BitVec.ofNat 32 call.expansion.length else -1
  extent : (printfToBuffer call size buffer).extent ≤ size ↔ Inside size 0 (piecesOf call.items)
  complete : Reaches size 0 (piecesOf call.items) →
    (call.expansion.length < size ∧
      firstBytes (printfToBuffer call size buffer).memory call.expansion.length =
        call.expansion ↔ EndsComplete size (piecesOf call.items))
  vm : (printfToBuffer call size buffer).vm = vmAfterAll size call.items 0 call.vm

theorem holds_start (buffer : Memory) : Holds [] ⟨buffer, 0, 0⟩ :=
  ⟨rfl, rfl⟩

theorem printfToBuffer_expanded (hasRoom : 1 < size) : Expanded call size buffer := by
  have puts := @printfLoop_puts call.environment size call.msgFmt .text
    ⟨call.vm, call.msgArgs, ⟨buffer, 0, 0⟩⟩ (Or.inl rfl)
  have reaches := @putAll_done ⟨buffer, 0, 0⟩ (piecesOf call.items) size
  have isCurr : Reaches size 0 (piecesOf call.items) →
      (putAll size (piecesOf call.items) ⟨buffer, 0, 0⟩).2.curr = call.expansion.length := by
    intro isReached
    rw [putAll_curr (reaches.mpr isReached), Nat.zero_add]
    rfl
  constructor
  · change (if _ = true then BitVec.ofNat 32 _ else -1) = _
    rw [puts.isDone, puts.isOut]
    split_ifs with done isReached isReached
    · exact congrArg (BitVec.ofNat 32) (isCurr isReached)
    · exact absurd (reaches.mp done) isReached
    · exact absurd (reaches.mpr isReached) done
    · rfl
  · change (printfLoop _ _ _ _ _).2.out.extent ≤ size ↔ _
    rw [puts.isOut]
    exact putAll_extent (Nat.zero_le size)
  · intro isReached
    have complete := putAll_complete (holds_start buffer) (Nat.zero_le size) hasRoom isReached
    rw [isCurr isReached] at complete
    change _ ∧ firstBytes (printfLoop _ _ _ _ _).2.out.memory _ = _ ↔ _
    rw [puts.isOut]
    exact complete
  · exact puts.isVm

theorem ofNat_eq_neg_one_iff (count : ℕ) :
    BitVec.ofNat 32 count = -1 ↔ count % 2 ^ 32 = 2 ^ 32 - 1 := by
  rw [← BitVec.toNat_inj, BitVec.toNat_ofNat]
  rfl

theorem ofNat_toInt_iff (count : ℕ) : (BitVec.ofNat 32 count).toInt = count ↔ count < 2 ^ 31 := by
  rw [BitVec.toInt_eq_toNat_cond, BitVec.toNat_ofNat]
  split_ifs <;> omega

theorem bufferLaw_iff (hasRoom : 1 < size) : BufferLaw call size buffer ↔ Fits size call.items := by
  obtain ⟨written, extent, complete, -⟩ := @printfToBuffer_expanded call size buffer hasRoom
  constructor
  · intro law
    refine ⟨extent.mp law.inside, fun isReached => ?_⟩
    rw [if_pos isReached] at written
    rcases law.complete with isNegative | ⟨count, small, isCount, isText⟩
    · rw [written] at isNegative
      exact Or.inl ((ofNat_eq_neg_one_iff _).mp isNegative)
    · have isLength : count = call.expansion.length := by
        rw [← isText, firstBytes_length]
      subst isLength
      rw [written] at isCount
      exact Or.inr ⟨(ofNat_toInt_iff _).mp isCount, (complete isReached).mp ⟨small, isText⟩⟩
  · intro fits
    refine ⟨extent.mpr fits.inside, ?_⟩
    by_cases isReached : Reaches size 0 (piecesOf call.items)
    · rw [if_pos isReached] at written
      rw [written]
      rcases fits.ends isReached with isNegative | ⟨short, ends⟩
      · exact Or.inl ((ofNat_eq_neg_one_iff _).mpr isNegative)
      · obtain ⟨small, isText⟩ := (complete isReached).mpr ends
        exact Or.inr ⟨_, small, (ofNat_toInt_iff _).mpr short, isText⟩
    · rw [if_neg isReached] at written
      exact Or.inl written

theorem length_dropLast_le (pieces : List Piece) :
    (textOf pieces.dropLast).length ≤ (textOf pieces).length := by
  rcases List.eq_nil_or_concat pieces with rfl | ⟨before, piece, rfl⟩
  · exact Nat.le_refl _
  · rw [List.concat_eq_append, List.dropLast_concat, textOf_append, List.length_append]
    exact Nat.le_add_right _ _

/-- A buffer with room for more than the expansion receives the expansion. -/
theorem printfToBuffer_large (large : call.expansion.length + 1 < size) :
    (printfToBuffer call size buffer).written = BitVec.ofNat 32 call.expansion.length ∧
      firstBytes (printfToBuffer call size buffer).memory call.expansion.length =
        call.expansion := by
  have isLength : call.expansion.length = (textOf (piecesOf call.items)).length := rfl
  have reaches : Reaches size 0 (piecesOf call.items) := by
    have part := length_dropLast_le (piecesOf call.items)
    exact Or.inr (by omega)
  have ends : EndsComplete size (piecesOf call.items) := by
    intro piece _
    rw [← isLength]
    cases piece with
    | whole bytes => exact (Nat.lt_succ_self _).trans large
    | cut bytes => exact Or.inl large
    | skip => trivial
  obtain ⟨written, -, complete, -⟩ := @printfToBuffer_expanded call size buffer (by omega)
  rw [if_pos reaches] at written
  exact ⟨written, ((complete reaches).mpr ends).2⟩

end OneBuffer

section Growing

variable {call : Call} {size start : ℕ} {buffer : Memory} {items before after : List Item}
  {item : Item} {run : Run} {fuel : ℕ}

theorem vmAfterAll_pop (size : ℕ) (items : List Item) (start : ℕ) (vm : Vm) :
    vmAfterAll size items start (popSyscallErrorMessage vm).2 = (popSyscallErrorMessage vm).2 := by
  induction items generalizing start with
  | nil => rfl
  | cons item items ih =>
      unfold vmAfterAll
      split_ifs
      · rfl
      · rw [vmAfter_pop, ih]

theorem vmAfterAll_cases (size : ℕ) (items : List Item) (start : ℕ) (vm : Vm) :
    vmAfterAll size items start vm = vm ∨
      vmAfterAll size items start vm = (popSyscallErrorMessage vm).2 := by
  induction items generalizing start with
  | nil => exact Or.inl rfl
  | cons item items ih =>
      unfold vmAfterAll
      split_ifs
      · exact Or.inl rfl
      · cases isMessage : item.popsMessage with
        | false => exact ih _
        | true => exact Or.inr (vmAfterAll_pop _ _ _ _)

theorem length_textOf_cons (item : Item) (items : List Item) :
    (textOf (piecesOf (item :: items))).length =
      item.piece.bytes.length + (textOf (piecesOf items)).length := by
  unfold piecesOf
  rw [List.map_cons, textOf_cons, List.length_append]

theorem length_textOf_append (first second : List Item) :
    (textOf (piecesOf (first ++ second))).length =
      (textOf (piecesOf first)).length + (textOf (piecesOf second)).length := by
  unfold piecesOf
  rw [List.map_append, textOf_append, List.length_append]

/-- The message is gone when there has been room before it. -/
theorem vmAfterAll_message (vm : Vm) (isMessage : item.popsMessage = true)
    (room : start + (textOf (piecesOf before)).length + 1 < size) :
    vmAfterAll size (before ++ item :: after) start vm = (popSyscallErrorMessage vm).2 := by
  induction before generalizing start vm with
  | nil =>
      have noText : (textOf (piecesOf [])).length = 0 := rfl
      rw [noText] at room
      rw [List.nil_append, vmAfterAll, if_neg (by omega), vmAfter, if_pos isMessage,
        vmAfterAll_pop]
  | cons first before ih =>
      rw [length_textOf_cons] at room
      rw [List.cons_append, vmAfterAll, if_neg (by omega), ih _ (by omega)]
      cases first.popsMessage with
      | false => rfl
      | true =>
          change (popSyscallErrorMessage (popSyscallErrorMessage vm).2).2 = _
          rw [pop_pop]

theorem items_pop (call : Call) :
    (call.again (popSyscallErrorMessage call.vm).2).items = call.items.map Item.erase :=
  itemsOf_pop _ _ _ _

theorem erase_erase (item : Item) : item.erase.erase = item.erase := by
  cases isMessage : item.popsMessage with
  | false => simp only [Item.erase, isMessage, Bool.false_eq_true, if_false]
  | true => simp only [Item.erase, isMessage, if_true]

theorem length_erase_le (item : Item) :
    item.erase.piece.bytes.length ≤ item.piece.bytes.length := by
  unfold Item.erase
  split_ifs
  · exact Nat.zero_le _
  · exact Nat.le_refl _

theorem length_map_erase_le (items : List Item) :
    (textOf (piecesOf (items.map Item.erase))).length ≤ (textOf (piecesOf items)).length := by
  induction items with
  | nil => exact Nat.le_refl _
  | cons item items ih =>
      have first := length_erase_le item
      rw [List.map_cons, length_textOf_cons, length_textOf_cons]
      omega

/-- The items are the same when the message is gone. -/
def Call.Steady (call : Call) : Prop :=
  call.items.map Item.erase = call.items

theorem Call.Steady.items_again (steady : call.Steady) (buffer : Memory) (hasRoom : 1 < size) :
    (call.again (printfToBuffer call size buffer).vm).items = call.items := by
  rw [(printfToBuffer_expanded hasRoom).vm]
  rcases vmAfterAll_cases size call.items 0 call.vm with same | popped
  · rw [same]
    rfl
  · rw [popped, items_pop]
    exact steady

/-- A growing buffer has the whole length when the loop ends. -/
theorem Call.Steady.written (steady : call.Steady) (hasRoom : 1 < size)
    (ended : printfToDynamicBuffer fuel call size buffer = some run) :
    run.written = BitVec.ofNat 32 call.expansion.length := by
  induction fuel generalizing call size buffer with
  | zero => cases ended
  | succ fuel ih =>
      unfold printfToDynamicBuffer at ended
      dsimp only at ended
      split_ifs at ended with failed
      · have sameItems := steady.items_again buffer hasRoom
        have laterSteady : (call.again (printfToBuffer call size buffer).vm).Steady := by
          unfold Call.Steady
          rw [sameItems]
          exact steady
        have later := ih laterSteady (by omega) ended
        unfold Call.expansion at later ⊢
        rwa [sameItems] at later
      · obtain rfl := Option.some.inj ended
        have written := (@printfToBuffer_expanded call size buffer hasRoom).written
        split_ifs at written
        · exact written
        · exact absurd written failed

end Growing

section EveryBuffer

variable {call : Call} {size : ℕ} {buffer beyond : Memory} {items : List Item} {piece : Piece}
  {pieces : List Piece}

theorem textOf_last (isLast : pieces.getLast? = some piece) :
    textOf pieces = textOf pieces.dropLast ++ piece.bytes := by
  obtain ⟨before, rfl⟩ := List.getLast?_eq_some_iff.mp isLast
  rw [List.dropLast_concat, textOf_append]
  exact congrArg _ (List.append_nil _)

theorem Robust.fits (robust : Robust items) : Fits size items := by
  constructor
  · intro before bytes after isSplit room
    have member : .whole bytes ∈ piecesOf items := by
      rw [isSplit]
      exact List.mem_append_right _ List.mem_cons_self
    have small := robust.characters bytes member
    omega
  · intro reaches
    refine Or.inr ⟨robust.short, fun piece isLast => ?_⟩
    have safe := robust.last piece isLast
    have room : (textOf (piecesOf items).dropLast).length + 1 < size := by
      rcases reaches with empty | room
      · rw [empty] at isLast
        cases isLast
      · rwa [Nat.zero_add] at room
    rw [textOf_last isLast, List.length_append]
    cases piece with
    | whole bytes =>
        have small : bytes.length ≤ 1 := safe
        change _ + bytes.length < size
        omega
    | cut bytes =>
        change _ + bytes.length + 1 < size ∨ _ + bytes.length + 1 = size ∧ _
        rcases safe with rfl | rfl
        · exact Or.inl room
        · rw [List.length_singleton]
          rcases Nat.lt_or_ge ((textOf (piecesOf items).dropLast).length + 1 + 1) size with
            fits | full
          · exact Or.inl fits
          · exact Or.inr ⟨by omega, rfl⟩
    | skip => trivial

theorem Robust.steady (robust : Robust call.items) : call.Steady := by
  refine (List.map_congr_left fun item member => ?_).trans (List.map_id _)
  cases isMessage : item.popsMessage with
  | false => simp only [Item.erase, isMessage, Bool.false_eq_true, if_false, id_eq]
  | true =>
      obtain ⟨bytes, isCut, -⟩ := message_cut member isMessage
      have empty := robust.messages item member isMessage
      obtain ⟨piece, popsMessage⟩ := item
      subst isMessage
      change piece = .cut bytes at isCut
      subst isCut
      obtain rfl : bytes = [] := empty
      rfl

/-- A run that succeeds has printed the expansion. -/
theorem Robust.bytes (robust : Robust call.items) (hasRoom : 1 < size)
    (succeeded : (printfToBuffer call size buffer).written ≠ -1) :
    0 ≤ (printfToBuffer call size buffer).written.toInt ∧
      (printfToBuffer call size buffer).bytes = call.expansion := by
  have law : BufferLaw call size buffer := (bufferLaw_iff hasRoom).mpr robust.fits
  obtain ⟨count, -, isCount, isText⟩ := law.complete.resolve_left succeeded
  unfold Run.bytes
  rw [isCount, Int.toNat_natCast]
  exact ⟨Int.natCast_nonneg count, isText⟩

theorem Robust.again (robust : Robust call.items) (buffer : Memory) (hasRoom : 1 < size) :
    Robust (call.again (printfToBuffer call size buffer).vm).items ∧
      (call.again (printfToBuffer call size buffer).vm).expansion = call.expansion := by
  unfold Call.expansion
  rw [robust.steady.items_again buffer hasRoom]
  exact ⟨robust, rfl⟩

/-- There is no room for the expansion when a run fails. -/
theorem Robust.small (robust : Robust call.items) (hasRoom : 1 < size)
    (failed : (printfToBuffer call size buffer).written = -1) :
    size < call.expansion.length + 2 := by
  have short : call.expansion.length < 2 ^ 31 := robust.short
  by_contra large
  have reaches : Reaches size 0 (piecesOf call.items) := by
    have part := length_dropLast_le (piecesOf call.items)
    have isLength : call.expansion.length = (textOf (piecesOf call.items)).length := rfl
    exact Or.inr (by omega)
  have written := (@printfToBuffer_expanded call size buffer hasRoom).written
  rw [if_pos reaches, failed] at written
  have negative := (ofNat_eq_neg_one_iff _).mp written.symm
  omega

/-- The loop ends as soon as there is room for the expansion. -/
theorem Robust.grows (robust : Robust call.items) (hasRoom : 1 < size) :
    ∃ fuel run, printfToDynamicBuffer fuel call size buffer = some run ∧
      run.bytes = call.expansion := by
  obtain ⟨missing, isMissing⟩ : ∃ missing, call.expansion.length + 2 - size = missing := ⟨_, rfl⟩
  induction missing using Nat.strong_induction_on generalizing call size buffer with
  | _ missing ih =>
      by_cases failed : (printfToBuffer call size buffer).written = -1
      · have small := robust.small hasRoom failed
        obtain ⟨later, sameText⟩ := robust.again buffer hasRoom
        obtain ⟨fuel, run, ended, isText⟩ := @ih (call.expansion.length + 2 - 2 * size) (by omega)
          (call.again (printfToBuffer call size buffer).vm) (2 * size)
          (resize size (printfToBuffer call size buffer).memory) later (by omega)
          (by rw [sameText])
        refine ⟨fuel + 1, run, ?_, isText.trans sameText⟩
        unfold printfToDynamicBuffer
        dsimp only
        rw [if_pos failed]
        exact ended
      · refine ⟨1, printfToBuffer call size buffer, ?_, (robust.bytes hasRoom failed).2⟩
        unfold printfToDynamicBuffer
        dsimp only
        rw [if_neg failed]

theorem Robust.printfLaw (robust : Robust call.items) : PrintfLaw call := by
  constructor
  · intro size buffer hasRoom
    exact (bufferLaw_iff hasRoom).mpr robust.fits
  · intro size beyond hasRoom
    by_cases failed : (printfToBuffer call size (zeroed size beyond)).written = -1
    · obtain ⟨later, sameText⟩ := robust.again (zeroed size beyond) hasRoom
      have roomLater : 1 < 2 * size := by omega
      obtain ⟨fuel, run, ended, isText⟩ :=
        @Robust.grows _ _ (zeroed (2 * size) beyond) later roomLater
      refine ⟨fuel, run, ?_, isText.trans sameText⟩
      have isNegative : ¬ 0 ≤ (printfToBuffer call size (zeroed size beyond)).written.toInt := by
        rw [failed]
        decide
      exact (if_neg isNegative).trans ended
    · obtain ⟨isCount, isText⟩ := robust.bytes hasRoom failed
      exact ⟨0, _, if_pos isCount, isText⟩
  · intro size buffer hasRoom
    exact robust.grows hasRoom

theorem PrintfLaw.fits (law : PrintfLaw call) (hasRoom : 1 < size) : Fits size call.items :=
  (bufferLaw_iff hasRoom).mp (law.buffer size (fun _ => 0) hasRoom)

theorem PrintfLaw.short (law : PrintfLaw call) : call.expansion.length < 2 ^ 31 := by
  obtain ⟨fuel, run, -, isText⟩ := law.growing 2 (fun _ => 0) (by decide)
  have isLength := congrArg List.length isText
  rw [Run.bytes, firstBytes_length] at isLength
  have bound := run.written.toInt_lt
  omega

/-- A size at which the last piece is not complete. -/
theorem PrintfLaw.ends (law : PrintfLaw call) (hasRoom : 1 < size)
    (isLast : (piecesOf call.items).getLast? = some piece)
    (room : (textOf (piecesOf call.items).dropLast).length + 1 < size) :
    piece.Complete size
      ((textOf (piecesOf call.items).dropLast).length + piece.bytes.length) := by
  have reaches : Reaches size 0 (piecesOf call.items) := Or.inr (by omega)
  have short : (textOf (piecesOf call.items)).length < 2 ^ 31 := law.short
  rcases (law.fits hasRoom).ends reaches with negative | ⟨-, complete⟩
  · omega
  · have isComplete := complete piece isLast
    rwa [textOf_last isLast, List.length_append] at isComplete

theorem PrintfLaw.characters (law : PrintfLaw call) {bytes : List UInt8}
    (member : .whole bytes ∈ piecesOf call.items) : bytes.length ≤ 2 := by
  obtain ⟨before, after, isSplit⟩ := List.append_of_mem member
  have hasRoom : 1 < (textOf before).length + 2 := by omega
  have inside := (law.fits hasRoom).inside before bytes after isSplit (by omega)
  omega

theorem PrintfLaw.last (law : PrintfLaw call)
    (isLast : (piecesOf call.items).getLast? = some piece) : EndsSafely piece := by
  obtain ⟨start, isStart⟩ : ∃ start, (textOf (piecesOf call.items).dropLast).length = start :=
    ⟨_, rfl⟩
  have ends : ∀ size, start + 1 < size → piece.Complete size (start + piece.bytes.length) := by
    intro size room
    have hasRoom : 1 < size := by omega
    rw [← isStart] at room ⊢
    exact law.ends hasRoom isLast room
  cases piece with
  | whole bytes =>
      have fits : start + bytes.length < start + 2 := ends (start + 2) (by omega)
      change bytes.length ≤ 1
      omega
  | cut bytes =>
      by_cases empty : bytes = []
      · exact Or.inl empty
      · have pos := List.length_pos_iff.mpr empty
        have tight : start + bytes.length + 1 < start + 2 ∨
            start + bytes.length + 1 = start + 2 ∧ bytes.getLast? = some 0 :=
          ends (start + 2) (by omega)
        rcases tight with fits | ⟨full, isNul⟩
        · omega
        · obtain ⟨byte, rfl⟩ := List.length_eq_one_iff.mp (show bytes.length = 1 by omega)
          obtain rfl := Option.some.inj isNul
          exact Or.inr rfl
  | skip => trivial

/-- A message that is printed before a run fails is not printed again. -/
theorem PrintfLaw.messages (law : PrintfLaw call) {item : Item} (member : item ∈ call.items)
    (isMessage : item.popsMessage = true) : item.piece.bytes = [] := by
  by_contra nonempty
  obtain ⟨bytes, isCut, noNul⟩ := message_cut member isMessage
  have isBytes : item.piece.bytes = bytes := by
    rw [isCut]
    rfl
  rw [isBytes] at nonempty
  have pos := List.length_pos_iff.mpr nonempty
  obtain ⟨before, after, isSplit⟩ := List.append_of_mem member
  obtain ⟨size, isSize⟩ : ∃ size, size = (textOf (piecesOf before)).length + 2 := ⟨_, rfl⟩
  have hasRoom : 1 < size := by omega
  have isPieces : piecesOf call.items = piecesOf before ++ item.piece :: piecesOf after := by
    rw [isSplit, piecesOf, List.map_append, List.map_cons]
    rfl
  have notLast : piecesOf after ≠ [] := by
    intro isEnd
    have isLast : (piecesOf call.items).getLast? = some (.cut bytes) := by
      rw [isPieces, isEnd, List.getLast?_concat, isCut]
    rcases law.last isLast with empty | isNul
    · exact nonempty empty
    · rw [isNul] at noNul
      exact noNul List.mem_cons_self
  have notReached : ¬ Reaches size 0 (piecesOf call.items) := by
    rw [isPieces]
    rintro (empty | room)
    · exact List.append_ne_nil_of_right_ne_nil _ (List.cons_ne_nil _ _) empty
    · rw [List.dropLast_append_of_ne_nil (List.cons_ne_nil _ _),
        List.dropLast_cons_of_ne_nil notLast, textOf_append, textOf_cons, isBytes,
        List.length_append, List.length_append] at room
      omega
  obtain ⟨written, -, -, isVm⟩ := @printfToBuffer_expanded call size (fun _ => 0) hasRoom
  rw [if_neg notReached] at written
  have isGone : (printfToBuffer call size fun _ => 0).vm =
      (popSyscallErrorMessage call.vm).2 := by
    rw [isVm, isSplit]
    exact vmAfterAll_message call.vm isMessage (by omega)
  obtain ⟨fuel, run, ended, isText⟩ := law.growing size (fun _ => 0) hasRoom
  cases fuel with
  | zero => cases ended
  | succ fuel =>
      unfold printfToDynamicBuffer at ended
      dsimp only at ended
      rw [if_pos written, isGone] at ended
      have laterItems := items_pop call
      have steady : (call.again (popSyscallErrorMessage call.vm).2).Steady := by
        unfold Call.Steady
        rw [laterItems, List.map_map]
        exact List.map_congr_left fun other _ => erase_erase other
      have isCount := steady.written (by omega) ended
      have isLength := congrArg List.length isText
      rw [Run.bytes, firstBytes_length, isCount] at isLength
      have shorter : (call.again (popSyscallErrorMessage call.vm).2).expansion.length <
          call.expansion.length := by
        have noText : item.erase.piece.bytes.length = 0 := by
          unfold Item.erase
          rw [if_pos isMessage]
          rfl
        have beforeLength := length_map_erase_le before
        have afterLength := length_map_erase_le after
        rw [Call.expansion, Call.expansion, laterItems, isSplit, List.map_append, List.map_cons,
          length_textOf_append, length_textOf_append, length_textOf_cons, length_textOf_cons,
          noText, isBytes]
        omega
      have short := law.short
      rw [(ofNat_toInt_iff _).mpr (by omega), Int.toNat_natCast] at isLength
      omega

theorem PrintfLaw.robust (law : PrintfLaw call) : Robust call.items where
  short := law.short
  characters := fun _ member => law.characters member
  last := fun _ isLast => law.last isLast
  messages := fun _ member isMessage => law.messages member isMessage

/-- The functions of Sys print the same bytes. -/
theorem PrintfLaw.sys (law : PrintfLaw call) (beyond : Memory) :
    (∃ fuel run, sysPrint fuel call beyond = some run ∧ run.bytes = call.expansion) ∧
      (∃ fuel run, sysSprint fuel call beyond = some run ∧ run.bytes = call.expansion) ∧
      ∃ fuel run, sysAprint fuel call beyond = some run ∧ run.bytes = call.expansion :=
  ⟨law.fixed 1024 beyond (by decide), law.fixed 128 beyond (by decide),
    law.growing 128 (zeroed 128 beyond) (by decide)⟩

/-- A buffer is filled as it should be if and only if the items fit it, and all buffers are if
and only if no size cuts an item off unnoticed and no message is printed. -/
theorem printf_law_iff (call : Call) :
    (∀ size buffer, 1 < size → (BufferLaw call size buffer ↔ Fits size call.items)) ∧
      (PrintfLaw call ↔ Robust call.items) :=
  ⟨fun _ _ hasRoom => bufferLaw_iff hasRoom, PrintfLaw.robust, Robust.printfLaw⟩

end EveryBuffer

section LongText

/-- `snprintf` for words in decimal and for strings. -/
def plainSnprintf : Snprintf where
  text
    | _, .word value => ascii (toString value.toInt).toList
    | _, .string chars => cString chars
    | format, _ => format
  string _ := rfl

/-- `sprint("%s", s)` with a string of 200 characters. -/
def longCall : Call where
  environment :=
    { snprintf := plainSnprintf
      frame := fun _ => 0
      str := fun _ => some (List.replicate 200 97)
      alloc := fun _ => none }
  vm := ⟨[]⟩
  msgFmt := ['%'.toNat, 's'.toNat]
  supported := by decide
  msgArgs := 40

/-- More characters than there are in a buffer of 128 are counted. -/
theorem longCall_not_printfLaw : ¬ PrintfLaw longCall := by
  intro law
  have isPieces : piecesOf longCall.items = [.cut (cString (List.replicate 200 97))] := rfl
  have isString : cString (List.replicate 200 97) = List.replicate 200 97 := by
    apply List.takeWhile_eq_self_iff.mpr
    intro byte member
    rw [List.eq_of_mem_replicate member]
    rfl
  rw [isString] at isPieces
  have isLast : (piecesOf longCall.items).getLast? = some (.cut (List.replicate 200 97)) := by
    rw [isPieces]
    rfl
  have noText : (textOf (piecesOf longCall.items).dropLast).length = 0 := by
    rw [isPieces]
    rfl
  have hasRoom : 1 < 128 := by decide
  have complete := law.ends hasRoom isLast (by omega)
  have isLength : (Piece.cut (List.replicate 200 97)).bytes.length = 200 :=
    List.length_replicate
  rw [noText, isLength] at complete
  rcases complete with fits | ⟨full, -⟩ <;> omega

end LongText

end Disvm.Printf
