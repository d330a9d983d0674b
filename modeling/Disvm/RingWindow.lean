import Mathlib.Data.List.Rotate
import Mathlib.Data.Nat.ModEq

/-!
# Windows of a circular array

A circular array stores a queue in `count` consecutive cells starting at
`head` and wrapping around at the end.  The window is that queue, oldest
element first.  Taking the oldest element shortens the window at its front and
storing behind it lengthens it at its back.
-/

namespace Disvm.Ring

variable {α : Type*}

/-- The `count` cells from `head` on, in circular order. -/
def window (cells : List α) (head count : Nat) : List α :=
  (cells.rotate head).take count

@[simp]
theorem window_zero (cells : List α) (head : Nat) :
    window cells head 0 = [] := by
  simp [window]

theorem window_length {cells : List α} {head count : Nat}
    (fits : count ≤ cells.length) :
    (window cells head count).length = count := by
  simp [window, fits]

theorem window_getElem? {cells : List α} {head count index : Nat}
    (fits : count ≤ cells.length) (inside : index < count) :
    (window cells head count)[index]? = cells[(index + head) % cells.length]? := by
  rw [window, List.getElem?_take_of_lt inside, List.getElem?_rotate (by omega)]

theorem window_getElem?_outside {cells : List α} {head count index : Nat}
    (fits : count ≤ cells.length) (outside : count ≤ index) :
    (window cells head count)[index]? = none := by
  rw [List.getElem?_eq_none_iff, window_length fits]
  exact outside

/-- The index behind a window, computed with one conditional subtraction. -/
theorem wrapped_eq_mod {head count length : Nat}
    (headInside : head < length) (room : count < length) :
    (if length ≤ head + count then head + count - length else head + count) =
      (count + head) % length := by
  split
  · rw [Nat.mod_eq_sub_mod (by omega), Nat.mod_eq_of_lt (by omega)]
    omega
  · rw [Nat.mod_eq_of_lt (by omega)]
    omega

/-- The next head, computed by comparing with the length. -/
theorem advanced_eq_mod {head length : Nat} (headInside : head < length) :
    (if head + 1 = length then 0 else head + 1) = (head + 1) % length := by
  split
  · rename_i atEnd
    rw [atEnd, Nat.mod_self]
  · rw [Nat.mod_eq_of_lt (by omega)]

/-- Storing a value in the cell behind the window appends it. -/
theorem window_push {cells : List α} {head count : Nat} (value : α)
    (room : count < cells.length) :
    window (cells.set ((count + head) % cells.length) value) head (count + 1) =
      window cells head count ++ [value] := by
  let stored := cells.set ((count + head) % cells.length) value
  have storedLength : stored.length = cells.length := List.length_set
  have storedFits : count + 1 ≤ stored.length := by omega
  have inBounds : (count + head) % cells.length < cells.length :=
    Nat.mod_lt _ (by omega)
  apply List.ext_getElem?
  intro index
  rcases Nat.lt_trichotomy index count with inside | atEnd | outside
  · have apart : (count + head) % cells.length ≠ (index + head) % cells.length := by
      intro equal
      have congruent : Nat.ModEq cells.length count index :=
        Nat.ModEq.add_right_cancel' head equal
      have := Nat.ModEq.eq_of_lt_of_lt congruent room (by omega)
      omega
    rw [window_getElem? storedFits (by omega), storedLength,
      List.getElem?_append_left (by rw [window_length room.le]; exact inside),
      window_getElem? room.le inside]
    exact List.getElem?_set_ne apart
  · subst atEnd
    rw [window_getElem? storedFits (by omega), storedLength,
      List.getElem?_append_right (by rw [window_length room.le]),
      window_length room.le]
    simpa using List.getElem?_set_self inBounds
  · rw [window_getElem?_outside storedFits (by omega), eq_comm,
      List.getElem?_eq_none_iff, List.length_append, window_length room.le]
    exact outside

/-- The oldest element is the cell at `head`. -/
theorem window_pop {cells : List α} {head count : Nat}
    (headInside : head < cells.length) (fits : count + 1 ≤ cells.length) :
    window cells head (count + 1) =
      cells[head] :: window cells ((head + 1) % cells.length) count := by
  apply List.ext_getElem?
  intro index
  cases index with
  | zero =>
      rw [window_getElem? fits (by omega), Nat.zero_add, Nat.mod_eq_of_lt headInside,
        List.getElem?_eq_getElem headInside, List.getElem?_cons_zero]
  | succ index =>
      rw [List.getElem?_cons_succ]
      by_cases inside : index < count
      · have shifted : (index + 1 + head) % cells.length =
            (index + (head + 1) % cells.length) % cells.length := by
          rw [Nat.add_mod_mod]
          congr 1
          omega
        rw [window_getElem? fits (by omega), window_getElem? (by omega) inside, shifted]
      · rw [window_getElem?_outside fits (by omega),
          window_getElem?_outside (by omega) (by omega)]

end Disvm.Ring
