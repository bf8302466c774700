import Mathlib.Algebra.BigOperators.Group.Finset.Piecewise
import Mathlib.Algebra.BigOperators.Fin
import Mathlib.Algebra.Order.BigOperators.Group.Finset
import Neutrino.Library.Runs
import Neutrino.Tasks.Cores
import Neutrino.Tasks.Rotation

namespace Neutrino.Tasks

open Library

/-- The part of `sched_start` in front of its `queue_put`. -/
def startBegin (t : TaskRef) (entryPoint : W64) : KernelM Unit := do
  lock (.task t)
  modifyData fun k => k.setContext t (startContext (k.tasks t) entryPoint)
  modifyData (·.setStatus t .new)

/-- Several processors over one queue. `starting` holds the tasks whose `sched_start` has locked
    them but not queued them, `releasing` those that are queued and still locked by it. -/
structure Smp (n : Nat) where
  state : Guarded LockName Kernel
  cores : Fin n → Core
  starting : List TaskRef
  releasing : List TaskRef
  started : List TaskRef

inductive SmpEvent (n : Nat)
  | core (i : Fin n)
  | terminate (i : Fin n)
  | startBegin (t : TaskRef) (entryPoint : W64)
  | startPut (t : TaskRef)
  | startEnd (t : TaskRef)
  deriving DecidableEq, Repr

namespace Smp

variable {n : Nat}

/-- The machine after `init_scheduler`, with one idle task for each processor. -/
def init (prior : TaskRef → Task) (idle : Fin n → TaskRef) (cpuIdle : W64) (growth : List Nat) :
    Smp n where
  state :=
    { held := fun _ => false
      data :=
        { ready := true
          tasks := fun t => if ∃ i, t = idle i then newIdleTask (prior t) cpuIdle else newTask (prior t)
          gtq := []
          growth := growth
          destroyed := [] } }
  cores i := ⟨{ id := BitVec.ofNat 16 i, idle := idle i, current := none, next := none }, .outside⟩
  starting := []
  releasing := []
  started := []

def isIdle (m : Smp n) (t : TaskRef) : Prop := ∃ i, t = (m.cores i).slots.idle

instance (m : Smp n) (t : TaskRef) : Decidable (m.isIdle t) :=
  inferInstanceAs (Decidable (∃ i, t = (m.cores i).slots.idle))

/-- One atomic step of one processor or of one `sched_start`. A step that waits for a lock is
    not taken. -/
def step (m : Smp n) : SmpEvent n → Option (Smp n)
  | .core i => (coreStep (m.cores i) m.state).toOption.map fun (core, g) =>
      { m with state := g, cores := Function.update m.cores i core }
  | .terminate i =>
    if (m.cores i).pc = .outside ∧ live (m.cores i).slots ≠ none then
      (schedTerminate (m.cores i).slots m.state).toOption.map fun (_, g) => { m with state := g }
    else none
  | .startBegin t entryPoint =>
    if m.isIdle t ∨ t ∈ m.started then none
    else (Tasks.startBegin t entryPoint m.state).toOption.map fun (_, g) =>
      { m with state := g, starting := t :: m.starting, started := t :: m.started }
  | .startPut t =>
    if t ∈ m.starting then (queuePut t m.state).toOption.map fun (_, g) =>
      { m with state := g, starting := m.starting.erase t, releasing := t :: m.releasing }
    else none
  | .startEnd t =>
    if t ∈ m.releasing then
      some { m with state := m.state.release (.task t), releasing := m.releasing.erase t }
    else none

/-- The places of a task: the queue, the next slots, and the current slots of the processors
    that are not inside `sched_cycle`. -/
def places (m : Smp n) (t : TaskRef) : Nat :=
  m.state.data.gtq.count t + ∑ i, ((m.cores i).slots.next.toList.count t +
    if (m.cores i).pc = .outside then (m.cores i).slots.current.toList.count t else 0)

end Smp

/-- What a processor holds. From its `queue_put` on until the slot is filled again, the current
    slot is a leftover. -/
def Core.owned (core : Core) : List TaskRef :=
  core.slots.next.toList ++ if core.pc = .fillCurrent then [] else core.slots.current.toList

theorem CoreMove.count_le {g : Guarded LockName Kernel} {core core' : Core} {k : Kernel}
    (move : CoreMove g core core' k) {t : TaskRef} (apart : t ≠ core.slots.idle) :
    k.gtq.count t + core'.owned.count t ≤ g.data.gtq.count t + core.owned.count t := by
  cases move with
  | enter | idle | busy | idleEmpty | idleQueued | busyEmpty | busyQueued | spare =>
    simp [Core.owned]
  | destroy cpu c calls runs => simp [Core.owned]
  | idleNone | alone => simp [Core.owned]
  | idleSome cpu u before after queue picked =>
    simp [Core.owned, queue, List.count_cons]
    omega
  | promote cpu u empty filled => simp [Core.owned, empty, filled]
  | swap cpu c u runs filled =>
    simp [Core.owned, runs, filled, List.count_cons]
    omega
  | putNone cpu empty => simp [Core.owned, empty]
  | putSome cpu c runs =>
    simp [Core.owned, runs]
    omega
  | drained => simp [Core.owned]
  | refill cpu u before after free queue picked =>
    simp [Core.owned, queue, free, List.count_cons]
    omega
  | advance cpu u filled => simp [Core.owned, filled]
  | nextNone => simp [Core.owned]
  | nextSome cpu u before after queue picked =>
    simp [Core.owned, queue, List.count_cons]
    omega
  | finish cpu =>
    cases runs : cpu.current with
    | none => simp [Core.owned, runs, apart.symm]
    | some c => simp [Core.owned, runs]

theorem CoreMove.sameIdle {g : Guarded LockName Kernel} {core core' : Core} {k : Kernel}
    (move : CoreMove g core core' k) : core'.slots.idle = core.slots.idle := by
  cases move <;> rfl

theorem sum_update {n : Nat} (cores : Fin n → Core) (i : Fin n) (core : Core) (f : Core → Nat) :
    (∑ j, f (Function.update cores i core j)) + f (cores i) = (∑ j, f (cores j)) + f core := by
  have changed : ∑ j, f (Function.update cores i core j) =
      ∑ j, Function.update (fun j => f (cores j)) i (f core) j := by
    congr 1
    funext j
    by_cases same : j = i
    · simp [same]
    · simp [same]
  rw [changed, Finset.sum_update_of_mem (Finset.mem_univ i),
    ← Finset.add_sum_erase Finset.univ (fun j => f (cores j)) (Finset.mem_univ i),
    Finset.sdiff_singleton_eq_erase]
  omega

theorem startBegin_ok {g g' : Guarded LockName Kernel} {t : TaskRef} {entryPoint : W64}
    (taken : startBegin t entryPoint g = .ok ((), g')) :
    g' = (g.acquire (.task t)).withData
      ((g.data.setContext t (startContext (g.data.tasks t) entryPoint)).setStatus t .new) := by
  obtain ⟨_, locked, first, rest⟩ := bind_ok taken
  unfold lock at first
  split at first
  · cases first
  · cases first
    cases rest
    rfl

namespace Smp

variable {n : Nat} {m m' : Smp n}

/-- How often a task is queued, about to be queued, or owned by a processor. -/
def total (m : Smp n) (t : TaskRef) : Nat :=
  m.state.data.gtq.count t + m.starting.count t + ∑ i, (m.cores i).owned.count t

structure Placed (m : Smp n) : Prop where
  locks : CycleFree m.state.held
  bound : ∀ t, ¬ m.isIdle t → m.total t ≤ if t ∈ m.started then 1 else 0

theorem places_le_total (m : Smp n) (t : TaskRef) : m.places t ≤ m.total t := by
  have each : ∀ i, ((m.cores i).slots.next.toList.count t +
      if (m.cores i).pc = .outside then (m.cores i).slots.current.toList.count t else 0) ≤
      (m.cores i).owned.count t := by
    intro i
    by_cases outside : (m.cores i).pc = .outside
    · simp [Core.owned, outside]
    · simp [Core.owned, outside]
  have sum := Finset.sum_le_sum (s := Finset.univ) fun i _ => each i
  simp only [places, total]
  omega

theorem Placed.places_le (placed : m.Placed) {t : TaskRef} (apart : ¬ m.isIdle t) :
    m.places t ≤ 1 := by
  have bound := placed.bound t apart
  have below := m.places_le_total t
  split at bound <;> omega

theorem init_placed (prior : TaskRef → Task) (idle : Fin n → TaskRef) (cpuIdle : W64)
    (growth : List Nat) : (init prior idle cpuIdle growth).Placed where
  locks := ⟨⟨⟨rfl, rfl⟩, rfl⟩, rfl⟩
  bound t _ := by simp [total, init, Core.owned]

/-- Everything an event can do to the machine. -/
inductive Move (m : Smp n) : SmpEvent n → Smp n → Prop
  | core (i : Fin n) (core : Core) (k : Kernel) (move : CoreMove m.state (m.cores i) core k) :
      Move m (.core i)
        { m with state := m.state.withData k, cores := Function.update m.cores i core }
  | terminate (i : Fin n) (c : TaskRef) (outside : (m.cores i).pc = .outside)
      (lives : live (m.cores i).slots = some c) :
      Move m (.terminate i) { m with state := m.state.withData (m.state.data.setStatus c .zombie) }
  | startBegin (t : TaskRef) (entryPoint : W64) (apart : ¬ m.isIdle t) (fresh : t ∉ m.started) :
      Move m (.startBegin t entryPoint)
        { m with
          state := (m.state.acquire (.task t)).withData
            ((m.state.data.setContext t (startContext (m.state.data.tasks t) entryPoint)).setStatus
              t .new)
          starting := t :: m.starting
          started := t :: m.started }
  | startPut (t : TaskRef) (member : t ∈ m.starting) :
      Move m (.startPut t)
        { m with
          state := m.state.withData (m.state.data.put t)
          starting := m.starting.erase t
          releasing := t :: m.releasing }
  | startEnd (t : TaskRef) (member : t ∈ m.releasing) :
      Move m (.startEnd t)
        { m with state := m.state.release (.task t), releasing := m.releasing.erase t }

theorem step_moves (locks : CycleFree m.state.held) {event : SmpEvent n}
    (taken : m.step event = some m') : m.Move event m' := by
  cases event with
  | core i =>
    obtain ⟨⟨core, g⟩, stepped, rfl⟩ := Option.map_eq_some_iff.mp taken
    obtain ⟨k, rfl, move⟩ := coreStep_moves locks (ok_of_toOption stepped)
    exact .core i core k move
  | terminate i =>
    simp only [step] at taken
    split at taken
    · rename_i allowed
      obtain ⟨c, lives⟩ := Option.ne_none_iff_exists'.mp allowed.2
      obtain ⟨⟨_, g⟩, stepped, rfl⟩ := Option.map_eq_some_iff.mp taken
      have runs := live_current lives
      cases schedTerminate_ok runs (ok_of_toOption stepped)
      exact .terminate i c allowed.1 lives
    · cases taken
  | startBegin t entryPoint =>
    simp only [step] at taken
    split at taken
    · cases taken
    · rename_i allowed
      obtain ⟨apart, fresh⟩ := not_or.mp allowed
      obtain ⟨⟨_, g⟩, stepped, rfl⟩ := Option.map_eq_some_iff.mp taken
      cases startBegin_ok (ok_of_toOption stepped)
      exact .startBegin t entryPoint apart fresh
  | startPut t =>
    simp only [step] at taken
    split at taken
    · rename_i member
      rw [(queuePut_returns locks.toQueueFree t).toOption] at taken
      cases taken
      exact .startPut t member
    · cases taken
  | startEnd t =>
    simp only [step] at taken
    split at taken
    · rename_i member
      cases taken
      exact .startEnd t member
    · cases taken

theorem Move.sameIdle {event : SmpEvent n} (move : m.Move event m') (i : Fin n) :
    (m'.cores i).slots.idle = (m.cores i).slots.idle := by
  cases move with
  | core j core k move =>
    by_cases same : i = j
    · subst same
      simpa using move.sameIdle
    · simp [same]
  | terminate | startBegin | startPut | startEnd => rfl

theorem Move.isIdle_iff {event : SmpEvent n} (move : m.Move event m') (t : TaskRef) :
    m'.isIdle t ↔ m.isIdle t := by
  simp only [isIdle, move.sameIdle]

theorem Move.locks {event : SmpEvent n} (move : m.Move event m') (locks : CycleFree m.state.held) :
    CycleFree m'.state.held := by
  cases move with
  | core | terminate | startPut => exact locks
  | startBegin =>
    exact ⟨⟨⟨by simp [locks.kalloc], by simp [locks.vmm]⟩, by simp [locks.gtq]⟩,
      by simp [locks.agentChannel]⟩
  | startEnd =>
    exact ⟨⟨⟨by simp [locks.kalloc], by simp [locks.vmm]⟩, by simp [locks.gtq]⟩,
      by simp [locks.agentChannel]⟩

theorem Move.total_le {event : SmpEvent n} (move : m.Move event m') {t : TaskRef}
    (apart : ¬ m.isIdle t) :
    m'.total t ≤ m.total t + if t ∈ m'.started ∧ t ∉ m.started then 1 else 0 := by
  cases move with
  | core i core k move =>
    have idle : t ≠ (m.cores i).slots.idle := fun same => apart ⟨i, same⟩
    have count := move.count_le idle
    have sum := sum_update m.cores i core fun c => c.owned.count t
    simp only [total, Guarded.withData_data]
    omega
  | terminate => exact Nat.le_add_right _ _
  | startBegin u entryPoint barred fresh =>
    by_cases same : t = u
    · simp [total, same, fresh]
      omega
    · have other : u ≠ t := fun same' => same same'.symm
      simp [total, List.count_cons_of_ne other]
  | startPut u member =>
    by_cases same : u = t
    · subst same
      have positive : 0 < m.starting.count u := List.count_pos_iff.mpr member
      simp [total]
      omega
    · simp [total, List.count_erase_of_ne (fun same' => same same'.symm), same]
  | startEnd => simp [total]

theorem Move.started_mono {event : SmpEvent n} (move : m.Move event m') {t : TaskRef}
    (member : t ∈ m.started) : t ∈ m'.started := by
  cases move with
  | startBegin => exact List.mem_cons_of_mem _ member
  | core | terminate | startPut | startEnd => exact member

theorem Move.placed {event : SmpEvent n} (move : m.Move event m') (placed : m.Placed) :
    m'.Placed where
  locks := move.locks placed.locks
  bound t apart := by
    rw [move.isIdle_iff] at apart
    have before := placed.bound t apart
    have grown := move.total_le apart
    by_cases old : t ∈ m.started
    · simp only [old, ↓reduceIte, not_true_eq_false, and_false, move.started_mono old] at *
      omega
    · by_cases new : t ∈ m'.started
      · simp only [old, new, ↓reduceIte, not_false_eq_true, and_self] at *
        omega
      · simp only [old, new, ↓reduceIte, not_false_eq_true, and_true] at *
        omega

theorem run_placed {boot : Smp n} {events : List (SmpEvent n)} (initial : boot.Placed)
    (run : Run (fun m event next => m.step event = some next) boot events m) : m.Placed := by
  refine run.invariant ?_ initial
  intro s event next placed taken
  exact (step_moves placed.locks taken).placed placed

end Smp

end Neutrino.Tasks
