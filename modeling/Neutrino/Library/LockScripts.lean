import Mathlib.Logic.Function.Basic

namespace Library

/-- What one step of a script does to the locks. -/
inductive Touch (Lock : Type)
  | take (l : Lock)
  | free (l : Lock)
  | none

variable {Lock Op : Type} [DecidableEq Lock] (touch : Op → Touch Lock)

/-- The rest of a script that is inside a section of the lock: it frees the lock before it
    takes it. -/
def inside (l : Lock) : List Op → Bool
  | [] => false
  | op :: rest =>
    match touch op with
    | .take other => if other = l then false else inside l rest
    | .free other => if other = l then true else inside l rest
    | .none => inside l rest

def mentions (l : Lock) : List Op → Bool
  | [] => false
  | op :: rest =>
    match touch op with
    | .take other => other = l || mentions l rest
    | .free other => other = l || mentions l rest
    | .none => mentions l rest

/-- Each lock that is taken is freed before it is taken again. -/
def Nested : List Op → Prop
  | [] => True
  | op :: rest =>
    (match touch op with
      | .take l => inside touch l rest = true
      | .free l => inside touch l rest = false
      | .none => True) ∧ Nested rest

/-- A script that starts and ends outside all sections. -/
structure Balanced (ops : List Op) : Prop where
  nested : Nested touch ops
  outside : ∀ l, inside touch l ops = false

variable {touch} {a b : List Op} {l : Lock}

theorem mentions_append : mentions touch l (a ++ b) = (mentions touch l a || mentions touch l b) := by
  induction a with
  | nil => rfl
  | cons op a ih =>
    cases step : touch op with
    | take other => simp [mentions, step, ih, Bool.or_assoc]
    | free other => simp [mentions, step, ih, Bool.or_assoc]
    | none => simp [mentions, step, ih]

theorem inside_append_of_mentions (found : mentions touch l a = true) :
    inside touch l (a ++ b) = inside touch l a := by
  induction a with
  | nil => cases found
  | cons op a ih =>
    cases step : touch op with
    | take other | free other =>
      by_cases same : other = l
      · simp [inside, step, same]
      · simpa [inside, step, same] using ih (by simpa [mentions, step, same] using found)
    | none => simpa [inside, step] using ih (by simpa [mentions, step] using found)

theorem inside_append_of_absent (absent : mentions touch l a = false) :
    inside touch l (a ++ b) = inside touch l b := by
  induction a with
  | nil => rfl
  | cons op a ih =>
    cases step : touch op with
    | take other | free other =>
      obtain ⟨apart, later⟩ : other ≠ l ∧ mentions touch l a = false := by
        simpa [mentions, step] using absent
      simp [inside, step, apart, ih later]
    | none => simpa [inside, step] using ih (by simpa [mentions, step] using absent)

theorem mentions_of_inside (held : inside touch l a = true) : mentions touch l a = true := by
  cases found : mentions touch l a with
  | true => rfl
  | false =>
    have empty := inside_append_of_absent (b := []) found
    rw [List.append_nil, held] at empty
    cases empty

theorem inside_append_of_outside (outside : inside touch l b = false) :
    inside touch l (a ++ b) = inside touch l a := by
  cases found : mentions touch l a with
  | true => exact inside_append_of_mentions found
  | false =>
    have empty := inside_append_of_absent (b := []) found
    rw [List.append_nil] at empty
    rw [inside_append_of_absent found, outside, empty]
    rfl

theorem Nested.append (first : Nested touch a) (second : Nested touch b)
    (apart : ∀ l, mentions touch l a = true → inside touch l b = false) : Nested touch (a ++ b) := by
  induction a with
  | nil => exact second
  | cons op a ih =>
    simp only [Nested, List.cons_append] at first ⊢
    cases step : touch op with
    | take other =>
      simp only [step] at first
      have later := mentions_of_inside first.1
      refine ⟨(inside_append_of_mentions later).trans first.1, ih first.2 fun l found => ?_⟩
      exact apart l (by simp [mentions, step, found])
    | free other =>
      simp only [step] at first
      have outside := apart other (by simp [mentions, step])
      refine ⟨(inside_append_of_outside outside).trans first.1, ih first.2 fun l found => ?_⟩
      exact apart l (by simp [mentions, step, found])
    | none =>
      refine ⟨trivial, ih first.2 fun l found => ?_⟩
      exact apart l (by simp [mentions, step, found])

namespace Balanced

theorem nil : Balanced touch [] := ⟨trivial, fun _ => rfl⟩

theorem append (first : Balanced touch a) (second : Balanced touch b) : Balanced touch (a ++ b) where
  nested := first.nested.append second.nested fun l _ => second.outside l
  outside l := (inside_append_of_outside (second.outside l)).trans (first.outside l)

theorem wrap {start stop : Op} (taken : touch start = .take l) (freed : touch stop = .free l)
    (body : Balanced touch a) (unused : mentions touch l a = false) :
    Balanced touch (start :: (a ++ [stop])) where
  nested := by
    have last : Nested touch [stop] := by simp [Nested, freed, inside]
    have inner : Nested touch (a ++ [stop]) := by
      refine body.nested.append last fun other found => ?_
      have apart : l ≠ other := by
        intro same
        rw [same, found] at unused
        cases unused
      simp [inside, freed, apart]
    simp only [Nested, taken]
    refine ⟨?_, inner⟩
    rw [inside_append_of_absent unused]
    simp [inside, freed]
  outside other := by
    by_cases same : l = other
    · simp [inside, taken, same]
    · have last : inside touch other [stop] = false := by simp [inside, freed, same]
      simp only [inside, taken, same, ↓reduceIte]
      exact (inside_append_of_outside last).trans (body.outside other)

theorem cons_none {op : Op} (neutral : touch op = .none) (rest : Balanced touch a) :
    Balanced touch (op :: a) where
  nested := by
    simp only [Nested, neutral]
    exact ⟨trivial, rest.nested⟩
  outside l := by
    simp only [inside, neutral]
    exact rest.outside l

end Balanced

section Threads

variable {Thread : Type} [DecidableEq Thread] {held : Lock → Bool} {todo : Thread → List Op}
  {x : Thread} {op : Op} {rest : List Op}

/-- The held locks are those of the sections that the threads are inside of, each thread with
    its own ones. -/
structure Accounted (touch : Op → Touch Lock) (held : Lock → Bool) (todo : Thread → List Op) :
    Prop where
  nested : ∀ x, Nested touch (todo x)
  owner : ∀ l, held l = true → ∃ x, inside touch l (todo x) = true
  locked : ∀ l x, inside touch l (todo x) = true → held l = true
  once : ∀ l x y, inside touch l (todo x) = true → inside touch l (todo y) = true → x = y

omit [DecidableEq Thread] in
theorem Accounted.start (touch : Op → Touch Lock) :
    Accounted touch (fun _ => false) fun _ : Thread => [] where
  nested _ := trivial
  owner _ held := by cases held
  locked _ _ held := by cases held
  once _ _ _ held := by cases held

theorem Accounted.replace (accounted : Accounted touch held todo) (nested : Nested touch rest)
    (same : ∀ l, inside touch l rest = inside touch l (todo x)) :
    Accounted touch held (Function.update todo x rest) := by
  have sections : ∀ l y, inside touch l (Function.update todo x rest y) = inside touch l (todo y) := by
    intro l y
    by_cases own : y = x
    · subst own
      simpa using same l
    · simp [own]
  refine ⟨fun y => ?_, ?_, ?_, ?_⟩
  · by_cases own : y = x
    · subst own
      simpa using nested
    · simpa [own] using accounted.nested y
  · simpa only [sections] using accounted.owner
  · simpa only [sections] using accounted.locked
  · simpa only [sections] using accounted.once

theorem Accounted.call (accounted : Accounted touch held todo) (done : todo x = [])
    (balanced : Balanced touch rest) : Accounted touch held (Function.update todo x rest) := by
  refine accounted.replace balanced.nested fun l => ?_
  rw [balanced.outside l, done]
  rfl

theorem Accounted.skip (accounted : Accounted touch held todo) (next : todo x = op :: rest)
    (neutral : touch op = .none) : Accounted touch held (Function.update todo x rest) := by
  have nested := accounted.nested x
  rw [next] at nested
  refine accounted.replace nested.2 fun l => ?_
  simp only [next, inside, neutral]

/-- A step of `x` that changes the sections of one lock, which no other thread is in. -/
theorem Accounted.update {b : Bool} (accounted : Accounted touch held todo) (nested : Nested touch rest)
    (others : ∀ other, other ≠ l → inside touch other rest = inside touch other (todo x))
    (own : inside touch l rest = b) (alone : ∀ y, y ≠ x → inside touch l (todo y) ≠ true) :
    Accounted touch (Function.update held l b) (Function.update todo x rest) := by
  have sections : ∀ other y, inside touch other (Function.update todo x rest y) = true ↔
      if other = l then y = x ∧ b = true else inside touch other (todo y) = true := by
    intro other y
    by_cases mine : y = x
    · subst mine
      split
      · simp_all
      · rename_i other'
        simp [others other other']
    · split
      · simp_all
      · simp [mine]
  refine ⟨fun y => ?_, fun other holds => ?_, fun other y within => ?_, fun other y z first second => ?_⟩
  · by_cases mine : y = x
    · subst mine
      simpa using nested
    · simpa [mine] using accounted.nested y
  · by_cases same : other = l
    · exact ⟨x, (sections other x).mpr (by simp_all)⟩
    · obtain ⟨y, within⟩ := accounted.owner other (by simpa [same] using holds)
      exact ⟨y, (sections other y).mpr (by simpa [same] using within)⟩
  · rw [sections] at within
    by_cases same : other = l
    · simp_all
    · simp only [same, ↓reduceIte] at within
      simpa [same] using accounted.locked other y within
  · rw [sections] at first second
    by_cases same : other = l
    · simp_all
    · simp only [same, ↓reduceIte] at first second
      exact accounted.once other y z first second

theorem Accounted.take (accounted : Accounted touch held todo) (next : todo x = op :: rest)
    (takes : touch op = .take l) (free : held l = false) :
    Accounted touch (Function.update held l true) (Function.update todo x rest) := by
  have nested := accounted.nested x
  simp only [next, Nested, takes] at nested
  refine accounted.update nested.2 (fun other same => ?_) nested.1 fun y _ within => ?_
  · simp [next, inside, takes, Ne.symm same]
  · rw [accounted.locked l y within] at free
    cases free

theorem Accounted.free (accounted : Accounted touch held todo) (next : todo x = op :: rest)
    (frees : touch op = .free l) :
    Accounted touch (Function.update held l false) (Function.update todo x rest) := by
  have nested := accounted.nested x
  simp only [next, Nested, frees] at nested
  have own : inside touch l (todo x) = true := by simp [next, inside, frees]
  refine accounted.update nested.2 (fun other same => ?_) nested.1 fun y mine within => ?_
  · simp [next, inside, frees, Ne.symm same]
  · exact mine (accounted.once l y x within own)

end Threads

end Library
