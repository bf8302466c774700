import Neutrino.Tasks.Scheduler

namespace Neutrino.Tasks

open Library

section Purpose

variable (g : Guarded LockName Kernel) (ignoreAffinity : Bool) (cpuId : BitVec 16)

/-- The affinity of a task lets the processor have it. -/
def atHome (t : TaskRef) : Bool :=
  (g.data.tasks t).cpuAffinity.cpuId == cpuId || (g.data.tasks t).cpuAffinity.affinityIgnored

/-- The tasks that a processor should be given. -/
def assignable (t : TaskRef) : Bool := pickable g t && (ignoreAffinity || atHome g cpuId t)

/-- A task that is passed over once, for the sake of its affinity. -/
def PassedOver (before : List TaskRef) (u : TaskRef) : Prop :=
  ignoreAffinity = false ∧ u ∈ before ∧ pickable g u = true

/-- What `queue_assign` is for: the first assignable task leaves the queue, the tasks passed over
    are marked, and no other task changes. -/
inductive Honours : Option TaskRef → Kernel → Prop
  | null {k : Kernel} (missing : ∀ t ∈ g.data.gtq, assignable g ignoreAffinity cpuId t = false)
    (queue : k.gtq = g.data.gtq) : Honours none k
  | first {before after : List TaskRef} {t : TaskRef} {k : Kernel} (found : g.data.gtq = before ++ t :: after)
    (right : assignable g ignoreAffinity cpuId t = true)
    (earlier : ∀ u ∈ before, assignable g ignoreAffinity cpuId u = false) (queue : k.gtq = before ++ after)
    (taken : k.tasks t = { g.data.tasks t with cpuAffinity := ⟨cpuId, false⟩ })
    (marked : ∀ u, PassedOver g ignoreAffinity before u → k.tasks u = { g.data.tasks u with
      cpuAffinity := { (g.data.tasks u).cpuAffinity with affinityIgnored := true } })
    (others : ∀ u ≠ t, ¬ PassedOver g ignoreAffinity before u → k.tasks u = g.data.tasks u) : Honours (some t) k

end Purpose

section Affinity

variable {g : Guarded LockName Kernel} {ignoreAffinity : Bool} {cpuId : BitVec 16} {t u : TaskRef} {k : Kernel}

theorem take_tasks (k : Kernel) (rest : List TaskRef) : (k.take t cpuId rest).tasks u =
    if u = t then { k.tasks t with cpuAffinity := ⟨cpuId, false⟩ } else k.tasks u := by
  by_cases same : u = t
  · subst same
    rw [if_pos rfl]
    exact Function.update_self ..
  · rw [if_neg same]
    exact Function.update_of_ne same ..

theorem honours_take {before after : List TaskRef} (found : g.data.gtq = before ++ t :: after)
    (right : assignable g ignoreAffinity cpuId t = true) (passed : ∀ u ∈ before, pickable g u = false) :
    Honours g ignoreAffinity cpuId (some t) (g.data.take t cpuId (before ++ after)) := by
  have none : ∀ u, ¬ PassedOver g ignoreAffinity before u := by
    rintro u ⟨-, member, picked⟩
    rw [passed u member] at picked
    cases picked
  refine .first found right (fun u member => ?_) rfl ?_ (fun u ended => absurd ended (none u)) fun u other _ => ?_
  · rw [assignable, passed u member, Bool.false_and]
  · rw [take_tasks, if_pos rfl]
  · rw [take_tasks, if_neg other]

theorem Honours.proper (honours : Honours g ignoreAffinity cpuId (some t) k) :
    assignable g ignoreAffinity cpuId t = true := by
  cases honours with
  | first _ right => exact right

theorem find_first {before after : List TaskRef} (found : g.data.gtq = before ++ t :: after)
    (picked : pickable g t = true) (passed : ∀ u ∈ before, pickable g u = false) :
    g.data.gtq.find? (pickable g) = some t :=
  List.find?_eq_some_iff_append.mpr ⟨picked, before, after, found, by simpa using passed⟩

/-- Affinity is honoured exactly if the first unlocked runnable task of the queue is at home
    already: no task is ever passed over. -/
theorem queueAssign_honours_iff (g : Guarded LockName Kernel) (free : QueueFree g.held) (ignoreAffinity : Bool)
    (cpuId : BitVec 16) :
    (∃ result k, Returns g (queueAssign ignoreAffinity cpuId) result k ∧ Honours g ignoreAffinity cpuId result k) ↔
      (ignoreAffinity = false → ∀ t, g.data.gtq.find? (pickable g) = some t → atHome g cpuId t = true) := by
  rcases queueAssign_cases free ignoreAffinity cpuId with ⟨missing, returned⟩ | ⟨before, t, after, found, picked, passed,
    returned⟩
  · refine iff_of_true ⟨none, g.data, returned, .null (fun t member => ?_) rfl⟩ fun _ t first => ?_
    · rw [assignable, missing t member, Bool.false_and]
    · have member := List.mem_of_find?_eq_some first
      have picked := List.find?_some first
      rw [missing t member] at picked
      cases picked
  · have first := find_first found picked passed
    constructor
    · rintro ⟨result, k, returned', honours⟩ heeded u same
      have answer := returned.symm.trans returned'
      have which : some t = result := congrArg Prod.fst (Except.ok.inj answer)
      subst which
      cases first.symm.trans same
      have right := honours.proper
      rw [assignable, heeded, picked, Bool.true_and, Bool.false_or] at right
      exact right
    · intro home
      refine ⟨some t, _, returned, honours_take found ?_ passed⟩
      rw [assignable, picked, Bool.true_and]
      cases ignoreAffinity with
      | false => rw [Bool.false_or, home rfl t first]
      | true => rfl

/-- Task 5 is ready and its affinity is for processor 1; task 6 is at home on processor 0. -/
def mixedQueue : Guarded LockName Kernel where
  held _ := false
  data :=
    { ready := true
      tasks := fun t => { (default : Task) with
        status := .ready, cpuAffinity := if t = 5 then ⟨1#16, false⟩ else ⟨0#16, false⟩ }
      gtq := [5, 6]
      growth := []
      destroyed := [] }

theorem mixedQueue_free : QueueFree mixedQueue.held := ⟨⟨rfl, rfl⟩, rfl⟩

theorem queueAssign_honours_home : ∃ result k, Returns mixedQueue (queueAssign false 1#16) result k ∧
    Honours mixedQueue false 1#16 result k := by
  refine (queueAssign_honours_iff mixedQueue mixedQueue_free false 1#16).mpr fun _ t first => ?_
  cases first
  rfl

/-- Processor 0 is given task 5 at once, and not task 6. -/
theorem queueAssign_foreign : ¬ ∃ result k, Returns mixedQueue (queueAssign false 0#16) result k ∧
    Honours mixedQueue false 0#16 result k := by
  rintro ⟨result, k, returned, honours⟩
  have taken := @queueAssign_some mixedQueue 5 false 0#16 mixedQueue_free [] [6] rfl nofun rfl
  have which : some 5 = result := congrArg Prod.fst (Except.ok.inj (taken.symm.trans returned))
  subst which
  exact absurd honours.proper (by decide)

end Affinity

end Neutrino.Tasks
