import Mathlib.Data.List.Rotate
import Neutrino.Library.Runs
import Neutrino.Tasks.Cycle

namespace Neutrino.Tasks

open Library

/-- `NewTask`, as the scheduler sees it; `Fs.newTask` has the pid. The allocator's memory is not cleared, so
    whatever the constructor leaves alone keeps its prior value. -/
def newTask (prior : Task) : Task := { prior with status := .embryo }

def newIdleTask (prior : Task) (entryPoint : W64) : Task :=
  { newTask prior with
    user := false
    context := contextInit prior.context entryPoint (processStackBase + processStackSize)
      processStackBase false
    status := .new }

/-- One processor with everything it schedules, and the tasks started so far. -/
structure Machine where
  state : Guarded LockName Kernel
  cpu : Cpu
  started : List TaskRef

/-- The machine after `init_scheduler`. -/
def initScheduler (prior : TaskRef → Task) (cpuId : BitVec 16) (idle : TaskRef) (cpuIdle : W64)
    (growth : List Nat) : Machine where
  state :=
    { held := fun _ => false
      data :=
        { ready := true
          tasks := fun t => if t = idle then newIdleTask (prior t) cpuIdle else newTask (prior t)
          gtq := []
          growth := growth
          destroyed := [] } }
  cpu := { id := cpuId, idle := idle, current := none, next := none }
  started := []

inductive Event
  | start (t : TaskRef) (entryPoint : W64)
  | terminate
  | cycle
  deriving DecidableEq, Repr

namespace Machine

def kernel (m : Machine) : Kernel := m.state.data

def order (m : Machine) : List TaskRef := Tasks.order m.cpu m.kernel

/-- Only a task that was never started can be started, and only the running task that is not
    the idle task terminates. A call that waits for a lock forever has no outcome. -/
def step (m : Machine) : Event → Option Machine
  | .start t entryPoint =>
    if t = m.cpu.idle ∨ t ∈ m.started then none
    else (schedStart t entryPoint m.state).toOption.map fun (_, g) =>
      { m with state := g, started := m.started ++ [t] }
  | .terminate =>
    if live m.cpu = none then none
    else (schedTerminate m.cpu m.state).toOption.map fun (_, g) => { m with state := g }
  | .cycle =>
    (schedCycle m.cpu m.state).toOption.map fun (cpu, g) => { m with state := g, cpu := cpu }

end Machine

/-- The account of a single processor: every task started is destroyed or in the order, once. -/
structure Ledger (cpu : Cpu) (k : Kernel) (started : List TaskRef) : Prop where
  steady : Steady cpu k
  accounted : started.Perm (k.destroyed ++ order cpu k)
  once : started.Nodup
  idleApart : cpu.idle ∉ started

section Ledger

variable {cpu after : Cpu} {k k' : Kernel} {started : List TaskRef} {t c : TaskRef}

theorem Steady.start (steady : Steady cpu k) (apart : t ≠ cpu.idle) (absent : t ∉ order cpu k)
    (entryPoint : W64) : Steady cpu (k.start t entryPoint) := by
  have line : waiting cpu (k.start t entryPoint) = waiting cpu k ++ [t] := by simp [waiting]
  have whole : order cpu (k.start t entryPoint) = order cpu k ++ [t] := by simp [order, line]
  constructor
  case nodup =>
    rw [whole]
    exact steady.nodup.append (List.nodup_singleton t) (by simpa using absent)
  case idleApart =>
    rw [line, List.mem_append, List.mem_singleton, not_or]
    exact ⟨steady.idleApart, apart.symm⟩
  case runnable =>
    intro u member
    by_cases same : u = t
    · simp [same]
    · rw [line] at member
      simpa [same] using steady.runnable u (by simpa [same] using member)
  case alive =>
    intro c runs
    have other : c ≠ t := by
      intro same
      rw [same] at runs
      exact absent (by simp [order, live_some runs apart])
    simpa [other] using steady.alive c runs
  case resting => exact steady.resting
  case idleStatus => simpa [apart.symm] using steady.idleStatus
  case outside =>
    intro u other outside
    rw [whole, List.mem_append, List.mem_singleton, not_or] at outside
    simpa [outside.2] using steady.outside u other outside.1

theorem Steady.terminate (steady : Steady cpu k) (lives : live cpu = some c) :
    Steady cpu (k.setStatus c .zombie) := by
  have nodup := steady.nodup
  rw [order, lives, Option.toList_some, List.singleton_append, List.nodup_cons] at nodup
  constructor
  case nodup => exact steady.nodup
  case idleApart => exact steady.idleApart
  case runnable =>
    intro t member
    have other : t ≠ c := fun same => nodup.1 (same ▸ member)
    simpa [other] using steady.runnable t member
  case alive =>
    intro t runs
    rw [live_current lives] at runs
    cases runs
    simp
  case resting => exact steady.resting
  case idleStatus => simpa [(live_ne_idle lives).symm] using steady.idleStatus
  case outside =>
    intro t apart absent
    have other : t ≠ c := by
      intro same
      exact absent (by simp [order, lives, same])
    simpa [other] using steady.outside t apart absent

theorem Ledger.notMem_order (ledger : Ledger cpu k started) (fresh : t ∉ started) :
    t ∉ order cpu k :=
  fun member => fresh (ledger.accounted.mem_iff.mpr (List.mem_append_right _ member))

theorem Ledger.start (ledger : Ledger cpu k started) (apart : t ≠ cpu.idle) (fresh : t ∉ started)
    (entryPoint : W64) : Ledger cpu (k.start t entryPoint) (started ++ [t]) := by
  constructor
  case steady => exact ledger.steady.start apart (ledger.notMem_order fresh) entryPoint
  case accounted =>
    have whole := ledger.accounted.append_right [t]
    simpa [order, waiting] using whole
  case once => exact ledger.once.append (List.nodup_singleton t) (by simpa using fresh)
  case idleApart =>
    rw [List.mem_append, List.mem_singleton, not_or]
    exact ⟨ledger.idleApart, fun same => apart same.symm⟩

theorem Ledger.terminate (ledger : Ledger cpu k started) (lives : live cpu = some c) :
    Ledger cpu (k.setStatus c .zombie) started where
  steady := ledger.steady.terminate lives
  accounted := ledger.accounted
  once := ledger.once
  idleApart := ledger.idleApart

theorem Ledger.cycle (ledger : Ledger cpu k started) (cycled : Cycled cpu k after k') :
    Ledger after k' started where
  steady := cycled.steady ledger.steady
  accounted := ledger.accounted.trans cycled.perm.symm
  once := ledger.once
  idleApart := by
    rw [cycled.sameIdle]
    exact ledger.idleApart

theorem Ledger.init (prior : TaskRef → Task) (cpuId : BitVec 16) (idle : TaskRef) (cpuIdle : W64)
    (growth : List Nat) :
    Ledger (initScheduler prior cpuId idle cpuIdle growth).cpu
      (initScheduler prior cpuId idle cpuIdle growth).kernel [] where
  steady :=
    { nodup := List.nodup_nil
      idleApart := by simp [waiting, initScheduler, Machine.kernel]
      runnable := by simp [waiting, initScheduler, Machine.kernel]
      alive := by simp [initScheduler]
      resting := fun _ => rfl
      idleStatus := by simp [initScheduler, Machine.kernel, Kernel.status, newIdleTask]
      outside := by
        intro t apart _
        have other : t ≠ idle := apart
        simp [initScheduler, Machine.kernel, Kernel.status, other, newTask] }
  accounted := by simp [initScheduler, Machine.kernel, order, waiting, live]
  once := List.nodup_nil
  idleApart := by simp

end Ledger

namespace Machine

structure Invariant (m : Machine) : Prop where
  unlocked : Unlocked m.state.held
  ledger : Ledger m.cpu m.kernel m.started

variable {m : Machine}

theorem start_invariant (invariant : m.Invariant) {t : TaskRef} {entryPoint : W64} {m' : Machine}
    (taken : m.step (.start t entryPoint) = some m') : m'.Invariant := by
  by_cases barred : t = m.cpu.idle ∨ t ∈ m.started
  · simp [step, barred] at taken
  · have returns := schedStart_returns (t := t) invariant.unlocked.toQueueFree
      (invariant.unlocked.tasks _) entryPoint
    rw [step, if_neg barred, returns.toOption] at taken
    obtain ⟨apart, fresh⟩ := not_or.mp barred
    cases taken
    exact ⟨invariant.unlocked, invariant.ledger.start apart fresh entryPoint⟩

theorem terminate_invariant (invariant : m.Invariant) {m' : Machine}
    (taken : m.step .terminate = some m') : m'.Invariant := by
  cases lives : live m.cpu with
  | none => simp [step, lives] at taken
  | some c =>
    have returns := schedTerminate_returns (live_current lives) (invariant.unlocked.tasks c)
    rw [step, lives, if_neg (by simp), returns.toOption] at taken
    cases taken
    exact ⟨invariant.unlocked, invariant.ledger.terminate lives⟩

theorem cycle_returns (invariant : m.Invariant) :
    ∃ m', m.step .cycle = some m' ∧ Cycled m.cpu m.kernel m'.cpu m'.kernel ∧ m'.Invariant := by
  obtain ⟨after, k', returns, cycled⟩ :=
    schedCycle_returns invariant.unlocked invariant.ledger.steady
  refine ⟨⟨m.state.withData k', after, m.started⟩, ?_, cycled, ?_⟩
  · rw [step, returns.toOption]
    rfl
  · exact ⟨invariant.unlocked, invariant.ledger.cycle cycled⟩

theorem run_invariant {boot : Machine} {events : List Event} (initial : boot.Invariant)
    (run : Run (fun m event next => m.step event = some next) boot events m) : m.Invariant := by
  refine run.invariant ?_ initial
  intro s event next invariant taken
  cases event with
  | start t entryPoint => exact start_invariant invariant taken
  | terminate => exact terminate_invariant invariant taken
  | cycle =>
    obtain ⟨result, same, -, after⟩ := cycle_returns invariant
    rw [taken] at same
    cases same
    exact after

end Machine

section Rotation

variable {cpu after : Cpu} {k k' : Kernel}

variable (cycled : Cycled cpu k after k')
include cycled

theorem Cycled.order_of_live {c : TaskRef} (lives : live cpu = some c) (spared : k.status c ≠ .zombie) :
    order after k' = (order cpu k).rotate 1 ∧ k'.destroyed = k.destroyed := by
  have kept : survivor cpu k = some c := by simp [survivor, lives, spared]
  have nobody : doomed cpu k = none := by simp [doomed, lives, spared]
  constructor
  · rw [cycled.rotated, kept, order, lives]
    simp
  · rw [cycled.destroyed, nobody]
    simp

theorem Cycled.order_of_zombie {c : TaskRef} (lives : live cpu = some c) (zombie : k.status c = .zombie) :
    order after k' = (order cpu k).tail ∧ k'.destroyed = k.destroyed ++ [c] := by
  have lost : survivor cpu k = none := by simp [survivor, lives, zombie, Option.filter]
  have dead : doomed cpu k = some c := by simp [doomed, lives, zombie]
  constructor
  · rw [cycled.rotated, lost, order, lives]
    simp
  · rw [cycled.destroyed, dead]
    simp

theorem Cycled.order_of_idle (nobody : live cpu = none) :
    order after k' = order cpu k ∧ k'.destroyed = k.destroyed := by
  constructor
  · rw [cycled.rotated, order]
    simp [survivor, nobody]
  · simp [cycled.destroyed, doomed, nobody]

theorem Cycled.running_iff (steady : Steady cpu k) {t : TaskRef} (apart : t ≠ cpu.idle) :
    k'.status t = .running ↔ (order after k').head? = some t := by
  have head : after.current = some t ↔ (order after k').head? = some t := by
    rw [cycled.current]
    cases (order after k').head? with
    | none => simp [apart.symm]
    | some first => simp
  rw [← head]
  constructor
  · intro running
    by_contra off
    rw [cycled.status, if_neg off] at running
    by_cases kept : survivor cpu k = some t
    · simp [kept] at running
    · rw [if_neg kept] at running
      by_cases lives : live cpu = some t
      · exact kept (by simp [survivor, lives, running])
      · by_cases line : t ∈ waiting cpu k
        · rcases steady.runnable t line with ready | new
          · rw [ready] at running
            cases running
          · rw [new] at running
            cases running
        · rcases steady.outside t apart (by simp [order, lives, line]) with embryo | zombie
          · rw [embryo] at running
            cases running
          · rw [zombie] at running
            cases running
  · intro runs
    rw [cycled.status, if_pos runs]

theorem Cycled.tail_runnable (steady : Steady cpu k) :
    ∀ t ∈ (order after k').tail, k'.status t = .new ∨ k'.status t = .ready := by
  intro t member
  have after_steady := cycled.steady steady
  have line : t ∈ waiting after k' := by
    cases lives : live after with
    | none =>
      have tail : t ∈ order after k' := List.mem_of_mem_tail member
      simpa [order, lives] using tail
    | some c => simpa [order, lives] using member
  exact (after_steady.runnable t line).symm

end Rotation

/-- Every cycle of a single processor rotates the tasks by one place, except that a zombie is
    dropped and that an idle processor only takes up the first task. -/
theorem cycle_rotates (prior : TaskRef → Task) (cpuId : BitVec 16) (idle : TaskRef) (cpuIdle : W64)
    (growth : List Nat) (events : List Event) (m : Machine)
    (run : Run (fun m event next => m.step event = some next)
      (initScheduler prior cpuId idle cpuIdle growth) events m) :
    m.started.Nodup ∧ m.started.Perm (m.kernel.destroyed ++ m.order) ∧
    (∀ t ∈ m.cpu.next.toList ++ m.kernel.gtq, t ≠ m.cpu.idle) ∧
    ∃ m', m.step .cycle = some m' ∧
      (∀ c, live m.cpu = some c → m.kernel.status c ≠ .zombie →
        m'.order = m.order.rotate 1 ∧ m'.kernel.destroyed = m.kernel.destroyed) ∧
      (∀ c, live m.cpu = some c → m.kernel.status c = .zombie →
        m.order.head? = some c ∧ m'.order = m.order.tail ∧
          m'.kernel.destroyed = m.kernel.destroyed ++ [c] ∧ m'.kernel.destroyed.count c = 1) ∧
      (live m.cpu = none → m'.order = m.order ∧ m'.kernel.destroyed = m.kernel.destroyed) ∧
      (∀ t, m'.order.head? = some t → m'.cpu.current = some t) ∧
      (∀ t, t ≠ m.cpu.idle → (m'.kernel.status t = .running ↔ m'.order.head? = some t)) ∧
      (∀ t ∈ m'.order.tail, m'.kernel.status t = .new ∨ m'.kernel.status t = .ready) := by
  have initial : (initScheduler prior cpuId idle cpuIdle growth).Invariant :=
    ⟨⟨⟨⟨⟨rfl, rfl⟩, rfl⟩, rfl⟩, fun _ => rfl⟩, Ledger.init prior cpuId idle cpuIdle growth⟩
  have invariant := Machine.run_invariant initial run
  have ledger := invariant.ledger
  have apart : ∀ t ∈ waiting m.cpu m.kernel, t ≠ m.cpu.idle := by
    intro t member same
    rw [same] at member
    exact ledger.steady.idleApart member
  refine ⟨ledger.once, ledger.accounted, apart, ?_⟩
  obtain ⟨m', taken, cycled, after⟩ := Machine.cycle_returns invariant
  refine ⟨m', taken, fun c => cycled.order_of_live, ?_, cycled.order_of_idle, ?_,
    fun t => cycled.running_iff ledger.steady, cycled.tail_runnable ledger.steady⟩
  · intro c lives zombie
    obtain ⟨rest, dead⟩ := cycled.order_of_zombie lives zombie
    refine ⟨order_head lives, rest, dead, ?_⟩
    have nodup := (after.ledger.accounted.nodup_iff.mp after.ledger.once).of_append_left
    exact List.count_eq_one_of_mem nodup (by simp [dead])
  · intro t head
    have first : (order m'.cpu m'.kernel).head? = some t := head
    rw [cycled.current, first]
    rfl

theorem cycle_rotates_three_tasks :
    ∃ m m' : Machine, m.order = [2, 3, 1] ∧ m.step .cycle = some m' ∧ m'.order = [3, 1] ∧
      m'.kernel.destroyed = [2] := by
  have reached : ([.start 1 0x400000, .start 2 0x400000, .cycle, .start 3 0x400000, .cycle,
      .terminate].foldlM Machine.step (initScheduler (fun _ => default) 0 0 0 [3, 1])).map
      (fun m => (m.order, live m.cpu, m.kernel.status 2, m.kernel.destroyed)) =
      some ([2, 3, 1], some 2, .zombie, []) := by decide +kernel
  obtain ⟨m, taken, facts⟩ := Option.map_eq_some_iff.mp reached
  simp only [Prod.mk.injEq] at facts
  obtain ⟨order, lives, zombie, none⟩ := facts
  obtain ⟨-, -, -, m', cycle, -, destroys, -⟩ :=
    cycle_rotates (fun _ => default) 0 0 0 [3, 1] _ m (Run.of_foldlM taken)
  obtain ⟨-, rest, dead, -⟩ := destroys 2 lives zombie
  refine ⟨m, m', order, cycle, ?_, ?_⟩
  · rw [rest, order]
    rfl
  · rw [dead, none]
    rfl

end Neutrino.Tasks
