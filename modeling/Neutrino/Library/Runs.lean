import Mathlib.Logic.Basic

namespace Library

/-- Finite runs of a labelled transition relation, with the labels in order. -/
inductive Run {State Label : Type*} (step : State → Label → State → Prop) :
    State → List Label → State → Prop
  | nil (s : State) : Run step s [] s
  | cons {s middle final : State} {label : Label} {labels : List Label} :
      step s label middle → Run step middle labels final → Run step s (label :: labels) final

namespace Run

variable {State Label : Type*} {step : State → Label → State → Prop}

theorem append {s middle final : State} {left right : List Label}
    (first : Run step s left middle) (second : Run step middle right final) :
    Run step s (left ++ right) final := by
  induction first with
  | nil => exact second
  | cons taken _ ih => exact .cons taken (ih second)

theorem snoc {s middle final : State} {labels : List Label} {label : Label}
    (before : Run step s labels middle) (taken : step middle label final) :
    Run step s (labels ++ [label]) final :=
  before.append (.cons taken (.nil final))

theorem split {s final : State} {left right : List Label} (run : Run step s (left ++ right) final) :
    ∃ middle, Run step s left middle ∧ Run step middle right final := by
  induction left generalizing s with
  | nil => exact ⟨s, .nil s, run⟩
  | cons label left ih =>
    cases run with
    | cons taken rest =>
      rcases ih rest with ⟨middle, first, second⟩
      exact ⟨middle, .cons taken first, second⟩

theorem unique (functional : ∀ s label a b, step s label a → step s label b → a = b)
    {s a b : State} {labels : List Label} (first : Run step s labels a) (second : Run step s labels b) :
    a = b := by
  induction first with
  | nil =>
    cases second
    rfl
  | cons taken _ ih =>
    cases second with
    | cons taken' rest =>
      cases functional _ _ _ _ taken taken'
      exact ih rest

theorem invariant {Inv : State → Prop}
    (preserved : ∀ s label next, Inv s → step s label next → Inv next)
    {s final : State} {labels : List Label} (run : Run step s labels final) (initial : Inv s) :
    Inv final := by
  induction run with
  | nil => exact initial
  | cons taken _ ih => exact ih (preserved _ _ _ initial taken)

theorem invariant_on {Inv : State → Prop} {among : Label → Prop}
    (preserved : ∀ s label next, Inv s → among label → step s label next → Inv next)
    {s final : State} {labels : List Label} (run : Run step s labels final)
    (all : ∀ label ∈ labels, among label) (initial : Inv s) : Inv final := by
  induction run with
  | nil => exact initial
  | cons taken _ ih =>
    exact ih (fun label member => all label (List.mem_cons_of_mem _ member))
      (preserved _ _ _ initial (all _ List.mem_cons_self) taken)

theorem recorded {Record : Type*} {record : Record → Label → Record}
    {Inv : Record → State → Prop}
    (preserved : ∀ h s label next, Inv h s → step s label next → Inv (record h label) next)
    {s final : State} {labels : List Label} (run : Run step s labels final) {h : Record}
    (initial : Inv h s) : Inv (labels.foldl record h) final := by
  induction run generalizing h with
  | nil => exact initial
  | cons taken _ ih => exact ih (preserved _ _ _ _ initial taken)

theorem mono_of {other : State → Label → State → Prop} {Inv : State → Prop}
    (preserved : ∀ s label next, Inv s → step s label next → Inv next)
    (weaker : ∀ s label next, Inv s → step s label next → other s label next)
    {s final : State} {labels : List Label} (run : Run step s labels final) (initial : Inv s) :
    Run other s labels final := by
  induction run with
  | nil s => exact .nil s
  | cons taken _ ih => exact .cons (weaker _ _ _ initial taken) (ih (preserved _ _ _ initial taken))

theorem mono {other : State → Label → State → Prop}
    (weaker : ∀ s label next, step s label next → other s label next)
    {s final : State} {labels : List Label} (run : Run step s labels final) :
    Run other s labels final :=
  @mono_of _ _ _ other (fun _ => True) (fun _ _ _ _ _ => trivial) (fun s label next _ => weaker s label next) s final
    labels run trivial

theorem of_foldlM {f : State → Label → Option State} {s final : State} {labels : List Label}
    (result : labels.foldlM f s = some final) :
    Run (fun s label next => f s label = some next) s labels final := by
  induction labels generalizing s with
  | nil =>
    cases result
    exact .nil _
  | cons label labels ih =>
    rw [List.foldlM_cons] at result
    obtain ⟨middle, first, rest⟩ := Option.bind_eq_some_iff.mp result
    exact .cons first (ih rest)

end Run

section Steps

variable {State Label : Type*} {step : State → Label → Option State}

/-- The property holds of every step of the run from a state on, up to where it gets stuck. -/
def EveryStep (step : State → Label → Option State) (property : State → Label → Prop) :
    State → List Label → Prop
  | _, [] => True
  | s, label :: labels => property s label ∧ ∀ next, step s label = some next → EveryStep step property next labels

theorem everyStep_iff {given property other : State → Label → Prop} {inv : Nat → State → Prop}
    (agree : ∀ left s label, inv (left + 1) s → given s label → (property s label ↔ other s label))
    (kept : ∀ left s label next, inv (left + 1) s → given s label → property s label →
      step s label = some next → inv left next)
    {s : State} {labels : List Label} (initial : inv labels.length s) (met : EveryStep step given s labels) :
    EveryStep step property s labels ↔ EveryStep step other s labels := by
  induction labels generalizing s with
  | nil => exact Iff.rfl
  | cons label labels ih =>
    obtain ⟨now, later⟩ := met
    have here := agree _ s label initial now
    constructor
    · rintro ⟨first, rest⟩
      refine ⟨here.mp first, fun next taken => ?_⟩
      exact (ih (kept _ s label next initial now first taken) (later next taken)).mp (rest next taken)
    · rintro ⟨first, rest⟩
      refine ⟨here.mpr first, fun next taken => ?_⟩
      exact (ih (kept _ s label next initial now (here.mpr first) taken) (later next taken)).mpr (rest next taken)

end Steps

section Answers

variable {State Other Input Output : Type*}

/-- The outputs of a machine to a list of inputs, with the state it ends in. -/
def answers (step : State → Input → Output × State) : State → List Input → List Output × State
  | s, [] => ([], s)
  | s, input :: inputs =>
    ((step s input).1 :: (answers step (step s input).2 inputs).1,
      (answers step (step s input).2 inputs).2)

theorem answers_eq {step : State → Input → Output × State} {step' : Other → Input → Output × Other}
    {Related : State → Other → Prop}
    (agree : ∀ s t input, Related s t →
      (step s input).1 = (step' t input).1 ∧ Related (step s input).2 (step' t input).2)
    {s : State} {t : Other} (related : Related s t) (inputs : List Input) :
    (answers step s inputs).1 = (answers step' t inputs).1 ∧
      Related (answers step s inputs).2 (answers step' t inputs).2 := by
  induction inputs generalizing s t with
  | nil => exact ⟨rfl, related⟩
  | cons input inputs ih =>
    obtain ⟨same, next⟩ := agree s t input related
    obtain ⟨rest, final⟩ := ih next
    exact ⟨by simp only [answers, same, rest], final⟩

end Answers

end Library
