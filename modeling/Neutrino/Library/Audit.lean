import Mathlib.Data.List.Basic

namespace Library

variable {State Event α β : Type}

/-- Code that may add to a log but never takes anything off it. -/
structure Logging (log : State → List Event) (α : Type) where
  run : State → α × State
  grows : ∀ s, log s <:+ log (run s).2

variable {log : State → List Event}

instance : Monad (Logging log) where
  pure a := ⟨fun s => (a, s), fun s => List.suffix_refl (log s)⟩
  bind code next := ⟨fun s => (next (code.run s).1).run (code.run s).2,
    fun s => (code.grows s).trans ((next (code.run s).1).grows (code.run s).2)⟩

/-- How a run is judged: by what is on record, and by what the code still has to find. -/
structure Audit (log : State → List Event) where
  allows : Event → Prop
  settled : State → Prop

namespace Audit

variable (audit : Audit log)

def Clean (s : State) : Prop := ∀ event ∈ log s, audit.allows event

def Good (s : State) : Prop := audit.Clean s ∧ audit.settled s

/-- Under the condition the code ends well with the value, and only under it does it end clean. -/
def Passes (s : State) (code : Logging log α) (condition : Prop) (value : α) : Prop :=
  (condition → audit.Good (code.run s).2 ∧ (code.run s).1 = value) ∧
    (audit.Clean (code.run s).2 → condition)

variable {audit} {s : State} {code : Logging log α} {next : α → Logging log β}
  {condition rest : Prop} {value : α} {final : β}

theorem Clean.before (clean : audit.Clean (code.run s).2) : audit.Clean s :=
  fun event member => clean event ((code.grows s).subset member)

namespace Passes

theorem clean_iff (passes : audit.Passes s code condition value) :
    audit.Clean (code.run s).2 ↔ condition :=
  ⟨passes.2, fun holds => (passes.1 holds).1.1⟩

theorem congr {condition' : Prop} (passes : audit.Passes s code condition value)
    (same : condition ↔ condition') : audit.Passes s code condition' value := by
  rwa [← same]

theorem weaken {audit' : Audit log} (passes : audit'.Passes s code condition value)
    (allows : audit'.allows = audit.allows) (settled : ∀ s, audit'.settled s → audit.settled s) :
    audit.Passes s code condition value := by
  have clean : ∀ s, audit'.Clean s ↔ audit.Clean s := fun s => by rw [Clean, Clean, allows]
  constructor
  · intro holds
    obtain ⟨⟨recorded, found⟩, result⟩ := passes.1 holds
    exact ⟨⟨(clean _).mp recorded, settled _ found⟩, result⟩
  · intro recorded
    exact passes.2 ((clean _).mpr recorded)

protected theorem pure (good : audit.Good s) : audit.Passes s (Pure.pure value) True value :=
  ⟨fun _ => ⟨good, rfl⟩, fun _ => trivial⟩

theorem bind (first : audit.Passes s code condition value)
    (second : ∀ s', condition → audit.Good s' → audit.Passes s' (next value) rest final) :
    audit.Passes s (code >>= next) (condition ∧ rest) final := by
  have split : (code >>= next).run s = (next (code.run s).1).run (code.run s).2 := rfl
  rw [Passes, split]
  constructor
  · rintro ⟨holds, later⟩
    obtain ⟨good, read⟩ := first.1 holds
    rw [read]
    exact (second _ holds good).1 later
  · intro clean
    have holds := first.2 clean.before
    obtain ⟨good, read⟩ := first.1 holds
    rw [read] at clean
    exact ⟨holds, (second _ holds good).2 clean⟩

theorem map (passes : audit.Passes s code condition value) (f : α → β) :
    audit.Passes s (f <$> code) condition (f value) := by
  have mapped : audit.Passes s (code >>= fun a => Pure.pure (f a)) (condition ∧ True) (f value) :=
    passes.bind fun _ _ good => .pure good
  exact mapped.congr (by simp)

theorem forM {ι : Type} {xs : List ι} {body : ι → Logging log PUnit} {condition : ι → Prop}
    (good : audit.Good s)
    (step : ∀ x ∈ xs, ∀ s, audit.Good s → audit.Passes s (body x) (condition x) ⟨⟩) :
    audit.Passes s (xs.forM body) (∀ x ∈ xs, condition x) ⟨⟩ := by
  induction xs generalizing s with
  | nil => exact (Passes.pure good).congr (by simp)
  | cons x xs ih =>
    rw [List.forall_mem_cons]
    refine (step x List.mem_cons_self s good).bind ?_
    intro s' _ good'
    exact ih good' fun y member => step y (List.mem_cons_of_mem x member)

end Passes

end Audit

end Library
