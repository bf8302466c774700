import Mathlib.Data.List.Basic
import Mathlib.Data.Nat.Find

namespace Library

/-- `b` is the first position at or after `start` and before `stop` that `hit` accepts. -/
def FirstHit (hit : Nat → Bool) (start stop b : Nat) : Prop :=
  start ≤ b ∧ b < stop ∧ hit b = true ∧ ∀ c, start ≤ c → c < b → hit c = false

theorem FirstHit.filter_range {hit : Nat → Bool} {stop b : Nat} (first : FirstHit hit 0 stop b) :
    (List.range stop).filter hit = b :: (List.range stop).filter fun c => hit c && !decide (c = b) := by
  obtain ⟨-, inside, accepted, before⟩ := first
  obtain ⟨rest, rfl⟩ : ∃ rest, stop = b + (1 + rest) := ⟨stop - b - 1, by omega⟩
  have skipped (test : Nat → Bool) (rejects : ∀ c < b, test c = false) : (List.range' 0 b).filter test = [] := by
    apply List.filter_eq_nil_iff.mpr
    intro c member
    have below := List.mem_range'_1.mp member
    rw [rejects c (by omega)]
    exact Bool.false_ne_true
  have first := skipped hit fun c less => before c (Nat.zero_le c) less
  have second := skipped (fun c => hit c && !decide (c = b)) fun c less => by simp [before c (Nat.zero_le c) less]
  have later : ((List.range' (b + 1) rest).filter fun c => hit c && !decide (c = b)) = (List.range' (b + 1) rest).filter hit := by
    apply List.filter_congr
    intro c member
    have behind := List.mem_range'_1.mp member
    have apart : c ≠ b := by omega
    simp [apart]
  rw [List.range_eq_range', ← List.range'_append_1, ← List.range'_append_1, Nat.zero_add, List.range'_one]
  simp only [List.filter_append, first, second, later, List.filter_cons, accepted, decide_true,
    Bool.not_true, Bool.and_false, List.nil_append, Bool.false_eq_true, ↓reduceIte, List.cons_append]

theorem findSome?_eq_of_mem {α β : Type*} {f g : α → Option β} {items : List α}
    (same : ∀ x ∈ items, f x = g x) : items.findSome? f = items.findSome? g := by
  induction items with
  | nil => rfl
  | cons head tail ih =>
    rw [List.findSome?_cons, List.findSome?_cons, same head (by simp),
      ih fun x member => same x (List.mem_cons_of_mem head member)]

/-- A scan by words and then by bits, stopping at the first hit. -/
def scan (w : Nat) (full : Nat → Bool) (hit : Nat → Bool) (words : List Nat) : Option Nat :=
  words.findSome? fun i =>
    if full i then none
    else (List.range w).findSome? fun j => if hit (i * w + j) then some (i * w + j) else none

theorem range'_mul (start count w : Nat) :
    List.range' (start * w) (count * w) =
      (List.range' start count).flatMap fun i => List.range' (i * w) w := by
  induction count generalizing start with
  | zero => simp
  | succ count ih =>
    rw [List.range'_succ, List.flatMap_cons, ← ih (start + 1), Nat.succ_mul, Nat.add_comm (count * w),
      ← List.range'_append_1, Nat.succ_mul]

theorem scan_word (w i : Nat) (hit : Nat → Bool) :
    ((List.range w).findSome? fun j => if hit (i * w + j) then some (i * w + j) else none) =
      (List.range' (i * w) w).find? hit := by
  rw [List.range'_eq_map_range, List.find?_eq_findSome?_guard, List.findSome?_map]
  congr 1

theorem scan_eq_find (w : Nat) (full hit : Nat → Bool) (start count : Nat)
    (skipped : ∀ i, full i = true → ∀ j, j < w → hit (i * w + j) = false) :
    scan w full hit (List.range' start count) =
      (List.range' (start * w) (count * w)).find? hit := by
  rw [range'_mul, List.find?_flatMap, scan]
  congr 1
  funext i
  by_cases isFull : full i = true
  · rw [if_pos isFull]
    symm
    apply List.find?_eq_none.mpr
    intro x member
    obtain ⟨lower, upper⟩ := List.mem_range'_1.mp member
    have inside := skipped i isFull (x - i * w) (by omega)
    rw [show i * w + (x - i * w) = x by omega] at inside
    simp [inside]
  · rw [if_neg isFull, scan_word]

section
variable {w : Nat} {full hit : Nat → Bool} {start stop : Nat}

theorem scan_eq_some_iff (b : Nat)
    (skipped : ∀ i, full i = true → ∀ j, j < w → hit (i * w + j) = false) :
    scan w full hit (List.range' start (stop - start)) = some b ↔
      FirstHit hit (start * w) (stop * w) b := by
  rw [scan_eq_find w full hit start _ skipped, List.find?_range'_eq_some, List.mem_range'_1,
    Nat.sub_mul]
  constructor
  · rintro ⟨accepted, ⟨lower, upper⟩, before⟩
    exact ⟨lower, by omega, accepted, fun c startC less => by simpa using before c startC less⟩
  · rintro ⟨lower, upper, accepted, before⟩
    exact ⟨accepted, ⟨lower, by omega⟩, fun c startC less => by simpa using before c startC less⟩

theorem scan_eq_none_iff
    (skipped : ∀ i, full i = true → ∀ j, j < w → hit (i * w + j) = false) :
    scan w full hit (List.range' start (stop - start)) = none ↔
      ∀ b, start * w ≤ b → b < stop * w → hit b = false := by
  rw [scan_eq_find w full hit start _ skipped, List.find?_eq_none, Nat.sub_mul]
  constructor
  · intro absent b lower upper
    simpa using absent b (List.mem_range'_1.mpr ⟨lower, by omega⟩)
  · intro absent b member
    obtain ⟨lower, upper⟩ := List.mem_range'_1.mp member
    simp [absent b lower (by omega)]

end

end Library
