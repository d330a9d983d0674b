import Mathlib.Data.Nat.Notation

/-!
# Shared runtime types

Identifiers and exceptions used by every component of the virtual machine.
Machine pointers are modelled by natural numbers; `nil` is an absent pointer.
-/

namespace Disvm

/-- Identifier handed out by `get_unique_thread_id`. -/
abbrev ThreadId := ℕ

/-- A location of program data: a frame slot, a module data word, a cell. -/
abbrev Address := ℕ

/-- A channel, by the address of its allocation. -/
abbrev ChannelId := ℕ

/-- User-visible exceptions thrown by the runtime. -/
inductive VmException where
  | outOfRangeMemory
  | indexOutOfRangeMemory (validMin validMax invalidValue : Int)
  | dereferenceNil (message : String)
  | invalidUtf8
  | userException (message : String)
  deriving DecidableEq, Repr

end Disvm
