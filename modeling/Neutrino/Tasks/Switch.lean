import Neutrino.Tasks.Interrupt
import Neutrino.Tasks.Rotation

namespace Neutrino.Tasks

open Library

/-- The locks that the guard of the handler looks at. -/
inductive GuardLock
  | isSwitching | kalloc | vmm
  deriving DecidableEq, Repr

def GuardLock.name : GuardLock → LockName
  | .isSwitching => .isSwitching
  | .kalloc => .kalloc
  | .vmm => .vmm

def Context.processor (context : Context) : Processor := ⟨context.regs, context.simd⟩

/-- A machine with its processor, and what each task has to find there when it runs again: what
    the processor held at the last switch away from it, or the context it starts from. -/
structure Switcher where
  machine : Machine
  processor : Processor
  expected : TaskRef → Processor

inductive SwitchEvent
  | start (t : TaskRef) (entryPoint : W64)
  | terminate
  | tick (captured : Processor)
  | take (l : GuardLock)
  | giveBack (l : GuardLock)
  deriving DecidableEq, Repr

namespace Switcher

def init (machine : Machine) (processor : Processor) : Switcher :=
  ⟨machine, processor, fun t => (machine.kernel.context t).processor⟩

/-- What the tasks expect after a switch that captured the current task like this. -/
def expectedAfter (s : Switcher) (captured : Processor) : TaskRef → Processor :=
  match s.machine.cpu.current with
  | some current => Function.update s.expected current captured
  | none => s.expected

def step (s : Switcher) : SwitchEvent → Option Switcher
  | .start t entryPoint => (s.machine.step (.start t entryPoint)).map fun m =>
      { s with
        machine := m
        expected := Function.update s.expected t
          (startContext (s.machine.kernel.tasks t) entryPoint).processor }
  | .terminate => (s.machine.step .terminate).map fun m => { s with machine := m }
  | .tick captured =>
    (interruptHandler s.machine.cpu captured s.machine.state).toOption.map
      fun ((cpu, processor), g) =>
        { machine := { s.machine with state := g, cpu := cpu }
          processor := processor
          expected := if passesGuard s.machine.state captured then s.expectedAfter captured
            else s.expected }
  | .take l =>
    if s.machine.state.held l.name then none
    else some { s with machine := { s.machine with state := s.machine.state.acquire l.name } }
  | .giveBack l =>
    if s.machine.state.held l.name then
      some { s with machine := { s.machine with state := s.machine.state.release l.name } }
    else none

structure Invariant (s : Switcher) : Prop where
  locks : ∀ l, s.machine.state.held l = true → ∃ guard : GuardLock, l = guard.name
  ledger : Ledger s.machine.cpu s.machine.kernel s.machine.started
  contexts : ∀ t, s.expected t = (s.machine.kernel.context t).processor

end Switcher

/-- The tasks after the context of the current one was saved. -/
def Kernel.saveCurrent (k : Kernel) (cpu : Cpu) (captured : Processor) : Kernel :=
  match cpu.current with
  | some current =>
    k.setContext current (contextSave (k.context current) captured.stack captured.simd)
  | none => k

section Tick

variable {g : Guarded LockName Kernel} {cpu : Cpu} {k : Kernel} {captured : Processor}

theorem Steady.setContext (steady : Steady cpu k) (t : TaskRef) (context : Context) :
    Steady cpu (k.setContext t context) where
  nodup := steady.nodup
  idleApart := steady.idleApart
  runnable := by simpa [waiting] using steady.runnable
  alive := by simpa using steady.alive
  resting := steady.resting
  idleStatus := by simpa using steady.idleStatus
  outside := by simpa [order, waiting] using steady.outside

theorem Ledger.saveCurrent {started : List TaskRef} (ledger : Ledger cpu k started)
    (captured : Processor) :
    Ledger cpu (k.saveCurrent cpu captured) started := by
  unfold Kernel.saveCurrent
  cases cpu.current with
  | none => exact ledger
  | some current =>
    exact ⟨ledger.steady.setContext _ _, ledger.accounted, ledger.once, ledger.idleApart⟩

theorem saveCurrent_steady_returns (steady : Steady cpu g.data) :
    Returns g (saveCurrent cpu captured) () (g.data.saveCurrent cpu captured) := by
  unfold Kernel.saveCurrent
  cases runs : cpu.current with
  | none =>
    simp only [saveCurrent, runs]
    exact .pure ()
  | some current => exact saveCurrent_returns runs (steady.alive current runs)

theorem switchTasks_returns {started : List TaskRef} (captured : Processor) (unlocked : Unlocked g.held)
    (spaces : ∀ t, g.held (.space t) = false) (ledger : Ledger cpu g.data started) :
    ∃ after k' t, Returns g (switchTasks cpu captured) (after, (k'.context t).processor) k' ∧
      after.current = some t ∧ Cycled cpu (g.data.saveCurrent cpu captured) after k' := by
  have saved : Ledger cpu (g.data.saveCurrent cpu captured) started := ledger.saveCurrent captured
  obtain ⟨after, k', cycles, cycled⟩ :=
    schedCycle_returns (g := g.withData (g.data.saveCurrent cpu captured)) unlocked saved.steady
  refine ⟨after, k', _, ?_, cycled.current, cycled⟩
  apply (saveCurrent_steady_returns ledger.steady).bind
  apply cycles.bind
  apply Returns.getData
  rw [cycled.current]
  exact .bind (.retain (spaces _) (.pure ())) (.pure _)

end Tick

namespace Switcher

variable {s : Switcher} {captured : Processor}

theorem unlocked_of_guard (invariant : s.Invariant)
    (passes : passesGuard s.machine.state captured = true) :
    Unlocked (s.machine.state.acquire .isSwitching).held ∧
      ∀ t, (s.machine.state.acquire .isSwitching).held (.space t) = false := by
  have free : ∀ l, (∀ guard : GuardLock, l ≠ guard.name) → s.machine.state.held l = false := by
    intro l other
    by_contra held
    rw [Bool.not_eq_false] at held
    obtain ⟨guard, same⟩ := invariant.locks l held
    exact other guard same
  have others : ∀ l, (∀ guard : GuardLock, l ≠ guard.name) →
      (s.machine.state.acquire .isSwitching).held l = false := by
    intro l other
    have apart : l ≠ .isSwitching := other .isSwitching
    rw [Guarded.acquire_held, if_neg apart]
    exact free l other
  simp only [passesGuard, Bool.and_eq_true, Bool.not_eq_true'] at passes
  obtain ⟨⟨-, kalloc⟩, vmm⟩ := passes
  have named : ∀ guard : GuardLock, guard.name = .isSwitching ∨ guard.name = .kalloc ∨
      guard.name = .vmm := by
    intro guard
    cases guard <;> simp [GuardLock.name]
  refine ⟨⟨⟨⟨⟨by simp [kalloc], by simp [vmm]⟩, others _ ?_⟩, others _ ?_⟩, fun t => others _ ?_⟩,
    fun t => others _ ?_⟩
  all_goals
    intro guard same
    rcases named guard with is | is | is <;> rw [is] at same <;> cases same

theorem tick_blocked (blocked : passesGuard s.machine.state captured = false) :
    s.step (.tick captured) = some { s with processor := captured } := by
  have returns := interruptHandler_blocked s.machine.cpu blocked
  simp only [step, returns.toOption, blocked]
  rfl

section

variable (invariant : s.Invariant)
include invariant

theorem expectedAfter_eq (t : TaskRef) : s.expectedAfter captured t =
      ((s.machine.kernel.saveCurrent s.machine.cpu captured).context t).processor := by
  unfold expectedAfter Kernel.saveCurrent
  cases s.machine.cpu.current with
  | none => exact invariant.contexts t
  | some current =>
    by_cases same : t = current
    · simp [same, Context.processor, contextSave]
    · simp [same, invariant.contexts t]

theorem tick_switches (passes : passesGuard s.machine.state captured = true) :
    ∃ s' t, s.step (.tick captured) = some s' ∧ s'.machine.cpu.current = some t ∧
      s'.processor = s.expectedAfter captured t ∧ s'.expected = s.expectedAfter captured ∧
      t ∉ s'.machine.kernel.destroyed ∧ s'.Invariant := by
  obtain ⟨unlocked, spaces⟩ := unlocked_of_guard invariant passes
  obtain ⟨after, k', t, switched, runs, cycled⟩ :=
    switchTasks_returns captured unlocked spaces invariant.ledger
  have returns := interruptHandler_switches passes switched
  have contexts : ∀ u, (k'.context u).processor = s.expectedAfter captured u := by
    intro u
    rw [cycled.context, expectedAfter_eq invariant]
    rfl
  have saved := (invariant.ledger.saveCurrent captured).cycle cycled
  refine ⟨⟨⟨s.machine.state.withData k', after, s.machine.started⟩, (k'.context t).processor,
    s.expectedAfter captured⟩, t, ?_, runs, contexts t, rfl, ?_, ?_⟩
  · simp only [step, returns.toOption, passes]
    rfl
  · intro dead
    have current := cycled.current
    rw [runs, Option.some.injEq] at current
    cases head : (order after k').head? with
    | none =>
      rw [head, Option.getD_none] at current
      have listed : t ∈ s.machine.started := saved.accounted.mem_iff.mpr (List.mem_append_left _ dead)
      rw [current] at listed
      exact invariant.ledger.idleApart listed
    | some first =>
      rw [head, Option.getD_some] at current
      have listed : t ∈ order after k' := current ▸ List.mem_of_mem_head? head
      have nodup := saved.accounted.nodup_iff.mp saved.once
      exact (List.nodup_append.mp nodup).2.2 t dead t listed rfl
  · exact ⟨invariant.locks, saved, fun u => (contexts u).symm⟩

theorem start_invariant {t : TaskRef} {entryPoint : W64} {s' : Switcher}
    (taken : s.step (.start t entryPoint) = some s') : s'.Invariant := by
  obtain ⟨m, started, rfl⟩ := Option.map_eq_some_iff.mp taken
  by_cases barred : t = s.machine.cpu.idle ∨ t ∈ s.machine.started
  · simp [Machine.step, barred] at started
  · obtain ⟨apart, fresh⟩ := not_or.mp barred
    rw [Machine.step, if_neg barred] at started
    obtain ⟨⟨_, g⟩, stepped, rfl⟩ := Option.map_eq_some_iff.mp started
    cases schedStart_ok (ok_of_toOption stepped)
    refine ⟨invariant.locks, invariant.ledger.start apart fresh entryPoint, ?_⟩
    intro u
    by_cases same : u = t
    · simp [Machine.kernel, same]
    · simpa [Machine.kernel, same] using invariant.contexts u

theorem terminate_invariant {s' : Switcher} (taken : s.step .terminate = some s') : s'.Invariant := by
  obtain ⟨m, ended, rfl⟩ := Option.map_eq_some_iff.mp taken
  cases lives : live s.machine.cpu with
  | none => simp [Machine.step, lives] at ended
  | some c =>
    rw [Machine.step, lives, if_neg (by simp)] at ended
    obtain ⟨⟨_, g⟩, stepped, rfl⟩ := Option.map_eq_some_iff.mp ended
    cases schedTerminate_ok (live_current lives) (ok_of_toOption stepped)
    refine ⟨invariant.locks, invariant.ledger.terminate lives, ?_⟩
    intro u
    simpa [Machine.kernel] using invariant.contexts u

theorem take_invariant {l : GuardLock} {s' : Switcher} (taken : s.step (.take l) = some s') : s'.Invariant := by
  simp only [step] at taken
  split at taken
  · cases taken
  · cases taken
    refine ⟨fun other held => ?_, invariant.ledger, invariant.contexts⟩
    by_cases same : other = l.name
    · exact ⟨l, same⟩
    · exact invariant.locks other (by simpa [same] using held)

theorem giveBack_invariant {l : GuardLock} {s' : Switcher} (taken : s.step (.giveBack l) = some s') : s'.Invariant := by
  simp only [step] at taken
  split at taken
  · cases taken
    refine ⟨fun other held => ?_, invariant.ledger, invariant.contexts⟩
    by_cases same : other = l.name
    · exact ⟨l, same⟩
    · exact invariant.locks other (by simpa [same] using held)
  · cases taken

theorem tick_invariant {s' : Switcher} (taken : s.step (.tick captured) = some s') : s'.Invariant := by
  cases passes : passesGuard s.machine.state captured with
  | false =>
    rw [tick_blocked passes] at taken
    cases taken
    exact ⟨invariant.locks, invariant.ledger, invariant.contexts⟩
  | true =>
    obtain ⟨result, t, same, -, -, -, -, after⟩ := tick_switches invariant passes
    rw [taken] at same
    cases same
    exact after

end

theorem run_invariant {boot : Switcher} {events : List SwitchEvent} (initial : boot.Invariant)
    (run : Run (fun s event next => s.step event = some next) boot events s) : s.Invariant := by
  refine run.invariant ?_ initial
  intro s event next invariant taken
  cases event with
  | start t entryPoint => exact start_invariant invariant taken
  | terminate => exact terminate_invariant invariant taken
  | tick captured => exact tick_invariant invariant taken
  | take l => exact take_invariant invariant taken
  | giveBack l => exact giveBack_invariant invariant taken

end Switcher

/-- Every tick comes back. If its guard passes, the processor holds what the task that now runs
    expects: what was captured at the last switch away from it, or the context it starts from. If
    the guard fails, nothing has changed. -/
theorem tick_restores_context (prior : TaskRef → Task) (cpuId : BitVec 16) (idle : TaskRef)
    (cpuIdle : W64) (growth : List Nat) (processor : Processor) (events : List SwitchEvent)
    (s : Switcher) (captured : Processor)
    (run : Run (fun s event next => s.step event = some next)
      (Switcher.init (initScheduler prior cpuId idle cpuIdle growth) processor) events s) :
    (passesGuard s.machine.state captured = true →
      ∃ s' t, s.step (.tick captured) = some s' ∧ s'.machine.cpu.current = some t ∧
        s'.processor = s.expectedAfter captured t ∧ s'.expected = s.expectedAfter captured ∧
        t ∉ s'.machine.kernel.destroyed) ∧
    (passesGuard s.machine.state captured = false →
      s.step (.tick captured) = some { s with processor := captured }) := by
  have initial : (Switcher.init (initScheduler prior cpuId idle cpuIdle growth) processor).Invariant :=
    ⟨by simp [Switcher.init, initScheduler], Ledger.init prior cpuId idle cpuIdle growth,
      fun _ => rfl⟩
  have invariant := Switcher.run_invariant initial run
  refine ⟨fun passes => ?_, Switcher.tick_blocked⟩
  obtain ⟨s', t, taken, runs, restored, expected, alive, -⟩ := Switcher.tick_switches invariant passes
  exact ⟨s', t, taken, runs, restored, expected, alive⟩

/-- Two tasks take turns; the tick in between finds the heap locked. The first task comes back
    to the registers of the second tick. -/
theorem tick_restores_context_two_tasks :
    ∃ s s' : Switcher, s.step (.tick (timerFrame 3)) = some s' ∧
      s'.machine.cpu.current = some 2 ∧ s'.processor = timerFrame 2 := by
  have reached : ([.start 2 0x400000, .start 3 0x400000, .tick (timerFrame 1), .tick (timerFrame 2),
      .take .kalloc, .tick (timerFrame 9), .giveBack .kalloc].foldlM Switcher.step
      (Switcher.init (initScheduler (fun _ => default) 0 0 0 []) (timerFrame 0))).map
      (fun s => (passesGuard s.machine.state (timerFrame 3),
        (s.step (.tick (timerFrame 3))).map (·.machine.cpu.current),
        s.expectedAfter (timerFrame 3) 2)) =
      some (true, some (some 2), timerFrame 2) := by decide +kernel
  obtain ⟨s, taken, facts⟩ := Option.map_eq_some_iff.mp reached
  simp only [Prod.mk.injEq] at facts
  obtain ⟨passes, next, expected⟩ := facts
  obtain ⟨switches, -⟩ := tick_restores_context (fun _ => default) 0 0 0 [] (timerFrame 0) _ s
    (timerFrame 3) (Run.of_foldlM taken)
  obtain ⟨s', t, tick, runs, restored, -⟩ := switches passes
  rw [tick, Option.map_some, runs] at next
  cases next
  exact ⟨s, s', tick, runs, restored.trans expected⟩

end Neutrino.Tasks
