import Mathlib.Data.List.Basic
import Mathlib.Logic.Function.Basic
import Mathlib.Tactic.SplitIfs

namespace Library.RingQueue

variable {α : Type*} {cells : Nat → α} {head tail max : Nat}

/-- The number of cells from the read cursor up to the write cursor. -/
def held (head tail max : Nat) : Nat := (head + (max - tail)) % max

def window (cells : Nat → α) (tail max count : Nat) : List α :=
  (List.range count).map fun k => cells ((tail + k) % max)

/-- The queue a ring holds, oldest element first. -/
def contents (cells : Nat → α) (head tail max : Nat) : List α :=
  window cells tail max (held head tail max)

theorem mod_of_lt_double {a : Nat} (bound : a < 2 * max) :
    a % max = if a < max then a else a - max := by
  split
  · exact Nat.mod_eq_of_lt ‹_›
  · rw [Nat.mod_eq_sub_mod (by omega)]
    exact Nat.mod_eq_of_lt (by omega)

section Cursors

variable (headBound : head < max) (tailBound : tail < max)
include headBound tailBound

theorem held_eq : held head tail max = if tail ≤ head then head - tail else head + max - tail := by
  rw [held, mod_of_lt_double (by omega)]
  split_ifs <;> omega

theorem held_lt : held head tail max < max := by
  rw [held_eq headBound tailBound]
  split <;> omega

omit tailBound in
theorem next_eq : (head + 1) % max = if head + 1 < max then head + 1 else 0 := by
  rw [mod_of_lt_double (by omega)]
  split <;> omega

theorem held_eq_zero_iff : held head tail max = 0 ↔ head = tail := by
  rw [held_eq headBound tailBound]
  split <;> omega

theorem held_full_iff : held head tail max = max - 1 ↔ (head + 1) % max = tail := by
  rw [held_eq headBound tailBound, next_eq headBound]
  split_ifs <;> omega

theorem tail_add_held : (tail + held head tail max) % max = head := by
  have bound := held_lt headBound tailBound
  rw [mod_of_lt_double (by omega)]
  rw [held_eq headBound tailBound] at bound ⊢
  split_ifs at bound ⊢ <;> omega

theorem held_push (room : (head + 1) % max ≠ tail) :
    held ((head + 1) % max) tail max = held head tail max + 1 := by
  have nextBound : (head + 1) % max < max := Nat.mod_lt _ (by omega)
  rw [held_eq nextBound tailBound, held_eq headBound tailBound]
  rw [next_eq headBound] at room ⊢
  split_ifs at room ⊢ <;> omega

theorem held_pop (some : head ≠ tail) :
    held head ((tail + 1) % max) max + 1 = held head tail max := by
  have nextBound : (tail + 1) % max < max := Nat.mod_lt _ (by omega)
  rw [held_eq headBound nextBound, held_eq headBound tailBound, next_eq tailBound]
  split_ifs <;> omega

end Cursors

@[simp]
theorem window_length (count : Nat) : (window cells tail max count).length = count := by
  simp [window]

theorem contents_length : (contents cells head tail max).length = held head tail max :=
  window_length _

theorem window_push {count : Nat} (tailBound : tail < max) (room : count < max) (x : α) :
    window (Function.update cells ((tail + count) % max) x) tail max (count + 1) =
      window cells tail max count ++ [x] := by
  simp only [window, List.range_succ, List.map_append, List.map_cons, List.map_nil,
    Function.update_self]
  congr 1
  apply List.map_congr_left
  intro k member
  have before : k < count := List.mem_range.mp member
  apply Function.update_of_ne
  rw [mod_of_lt_double (by omega), mod_of_lt_double (by omega)]
  split_ifs <;> omega

theorem window_pop (count : Nat) (tailBound : tail < max) :
    window cells tail max (count + 1) =
      cells tail :: window cells ((tail + 1) % max) max count := by
  simp only [window, List.range_succ_eq_map, List.map_cons, List.map_map, Nat.add_zero,
    Nat.mod_eq_of_lt tailBound]
  congr 1
  apply List.map_congr_left
  intro k _
  simp only [Function.comp, Nat.mod_add_mod]
  congr 2
  omega

section Operations

variable (headBound : head < max) (tailBound : tail < max)
include headBound tailBound

theorem contents_push (room : (head + 1) % max ≠ tail) (x : α) :
    contents (Function.update cells head x) ((head + 1) % max) tail max =
      contents cells head tail max ++ [x] := by
  rw [contents, held_push headBound tailBound room]
  have pushed := @window_push _ cells _ _ _ tailBound (held_lt headBound tailBound) x
  rwa [tail_add_held headBound tailBound] at pushed

theorem contents_pop (some : head ≠ tail) :
    contents cells head tail max = cells tail :: contents cells head ((tail + 1) % max) max := by
  rw [contents, ← held_pop headBound tailBound some, window_pop _ tailBound, contents]

theorem contents_eq_nil_iff : contents cells head tail max = [] ↔ head = tail := by
  rw [← List.length_eq_zero_iff, contents_length, held_eq_zero_iff headBound tailBound]

theorem contents_full_iff :
    (contents cells head tail max).length = max - 1 ↔ (head + 1) % max = tail := by
  rw [contents_length, held_full_iff headBound tailBound]

end Operations

theorem contents_reset : contents cells 0 0 max = [] := by
  have none : held 0 0 max = 0 := by simp [held]
  simp [contents, none, window]

end Library.RingQueue
