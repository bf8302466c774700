import Mathlib.Logic.ExistsUnique
import Mathlib.Logic.Function.Basic

namespace Library

variable {Place Object : Type*} {holder : Place → Option Object} {allocated : Object → Prop}

/-- What the places hold is allocated, and what is allocated is held in exactly one place. -/
def Housed (holder : Place → Option Object) (allocated : Object → Prop) : Prop :=
  (∀ place object, holder place = some object → allocated object) ∧
    ∀ object, allocated object → ∃! place, holder place = some object

namespace Housed

variable (housed : Housed holder allocated)
include housed

theorem unique {left right : Place} {object : Object} (atLeft : holder left = some object)
    (atRight : holder right = some object) : left = right :=
  (housed.2 object (housed.1 left object atLeft)).unique atLeft atRight

theorem congr {allocated' : Object → Prop} (same : ∀ object, allocated object ↔ allocated' object) :
    Housed holder allocated' := by
  have equal : allocated = allocated' := funext fun object => propext (same object)
  exact equal ▸ housed

theorem add [DecidableEq Place] {place : Place} {object : Object} (empty : holder place = none)
    (fresh : ¬ allocated object) :
    Housed (Function.update holder place (some object))
      fun other => other = object ∨ allocated other := by
  constructor
  · intro at_ other held
    by_cases same : at_ = place
    · subst same
      simp only [Function.update_self, Option.some.injEq] at held
      exact .inl held.symm
    · rw [Function.update_of_ne same] at held
      exact .inr (housed.1 at_ other held)
  · intro other known
    rcases known with rfl | old
    · refine ⟨place, Function.update_self .., ?_⟩
      intro at_ held
      by_contra apart
      simp only [Function.update_of_ne apart] at held
      exact fresh (housed.1 at_ _ held)
    · obtain ⟨at_, held, only⟩ := housed.2 other old
      have apart : at_ ≠ place := by
        rintro rfl
        simp [empty] at held
      refine ⟨at_, by simpa only [Function.update_of_ne apart] using held, ?_⟩
      intro at' held'
      by_cases same : at' = place
      · subst same
        simp only [Function.update_self, Option.some.injEq] at held'
        exact absurd (held' ▸ old) fresh
      · simp only [Function.update_of_ne same] at held'
        exact only at' held'

theorem not_lost {object : Object} (still : allocated object) (lost : ∀ place, holder place ≠ some object) : False := by
  obtain ⟨place, held, -⟩ := housed.2 object still
  exact lost place held

end Housed

end Library
