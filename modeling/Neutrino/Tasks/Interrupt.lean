import Neutrino.Tasks.Scheduler

namespace Neutrino.Tasks

open Library

def apicTimerIrq : W64 := 32#64

/-- The parts of the processor that a task switch exchanges: the frame on the interrupt stack,
    through which the handler returns, and the vector registers. -/
structure Processor where
  stack : Registers
  simd : Simd
  deriving DecidableEq, Repr

/-- A timer interrupt that finds a number in `rax` and nothing else. -/
def timerFrame (rax : W64) : Processor := ⟨{ zeroRegisters with irq := apicTimerIrq, rax := rax }, []⟩

/-- Only what `space_switch` does to its lock is seen here. -/
def spaceSwitch (t : TaskRef) : KernelM Unit := retain (.space t) (pure ())

def saveCurrent (cpu : Cpu) (processor : Processor) : KernelM Unit :=
  match cpu.current with
  | some current => do
    let k ← getData
    if (k.tasks current).neverRun then pure ()
    else modifyData (·.setContext current
      (contextSave (k.context current) processor.stack processor.simd))
  | none => pure ()

/-- The body of the timer interrupt, behind the guard. `sched_cycle` always leaves a current
    task. -/
def switchTasks (cpu : Cpu) (processor : Processor) : KernelM (Cpu × Processor) := do
  saveCurrent cpu processor
  let cpu ← schedCycle cpu
  let current := cpu.current.getD cpu.idle
  let (stack, simd) := contextLoad ((← getData).context current)
  spaceSwitch current
  return (cpu, ⟨stack, simd⟩)

def interruptHandler (cpu : Cpu) (processor : Processor) : KernelM (Cpu × Processor) := do
  if processor.stack.irq = apicTimerIrq then
    if (← getData).ready then
      if ← isHeld .isSwitching then return (cpu, processor)
      else retain .isSwitching do
        if ← isHeld .kalloc then return (cpu, processor)
        else if ← isHeld .vmm then return (cpu, processor)
        else switchTasks cpu processor
    else return (cpu, processor)
  else return (cpu, processor)

/-- The conditions under which the handler switches tasks. -/
def passesGuard (g : Guarded LockName Kernel) (processor : Processor) : Bool :=
  processor.stack.irq == apicTimerIrq && g.data.ready && !g.held .isSwitching && !g.held .kalloc &&
    !g.held .vmm

section Specs

variable {g : Guarded LockName Kernel} {cpu : Cpu} {processor : Processor}

theorem interruptHandler_blocked (cpu : Cpu) (blocked : passesGuard g processor = false) :
    Returns g (interruptHandler cpu processor) (cpu, processor) g.data := by
  unfold interruptHandler
  by_cases timer : processor.stack.irq = apicTimerIrq
  · rw [if_pos timer]
    apply Returns.getData
    cases ready : g.data.ready with
    | false => exact .pure _
    | true =>
      apply Returns.isHeld
      cases switching : g.held .isSwitching with
      | true => exact .pure _
      | false =>
        apply Returns.retain switching
        apply Returns.isHeld
        cases kalloc : g.held .kalloc with
        | true =>
          simp only [Guarded.acquire_held, reduceCtorEq, ↓reduceIte, kalloc]
          exact .pure _
        | false =>
          have vmm : g.held .vmm = true := by
            simpa [passesGuard, timer, ready, switching, kalloc] using blocked
          simp only [Guarded.acquire_held, reduceCtorEq, ↓reduceIte, kalloc, Bool.false_eq_true]
          apply Returns.isHeld
          simp only [Guarded.acquire_held, reduceCtorEq, ↓reduceIte, vmm]
          exact .pure _
  · rw [if_neg timer]
    exact .pure _

theorem interruptHandler_switches (passes : passesGuard g processor = true)
    {after : Cpu × Processor} {k : Kernel}
    (switched : Returns (g.acquire .isSwitching) (switchTasks cpu processor) after k) :
    Returns g (interruptHandler cpu processor) after k := by
  obtain ⟨⟨⟨⟨timer, ready⟩, switching⟩, kalloc⟩, vmm⟩ :
      (((processor.stack.irq = apicTimerIrq ∧ g.data.ready = true) ∧ g.held .isSwitching = false) ∧
        g.held .kalloc = false) ∧ g.held .vmm = false := by
    simpa [passesGuard] using passes
  unfold interruptHandler
  rw [if_pos timer]
  apply Returns.getData
  simp only [ready, ↓reduceIte]
  apply Returns.isHeld
  simp only [switching, Bool.false_eq_true, ↓reduceIte]
  apply Returns.retain switching
  apply Returns.isHeld
  simp only [Guarded.acquire_held, reduceCtorEq, ↓reduceIte, kalloc, Bool.false_eq_true]
  apply Returns.isHeld
  simp only [Guarded.acquire_held, reduceCtorEq, ↓reduceIte, vmm, Bool.false_eq_true]
  exact switched

theorem saveCurrent_returns {current : TaskRef} (runs : cpu.current = some current)
    (ran : g.data.status current = .running ∨ g.data.status current = .zombie) :
    Returns g (saveCurrent cpu processor) ()
      (g.data.setContext current
        (contextSave (g.data.context current) processor.stack processor.simd)) := by
  have saved : (g.data.tasks current).neverRun = false := by
    rcases ran with running | zombie
    · simp only [Kernel.status] at running
      simp [Task.neverRun, running]
    · simp only [Kernel.status] at zombie
      simp [Task.neverRun, zombie]
  simp only [saveCurrent, runs]
  apply Returns.getData
  simp only [saved, Bool.false_eq_true, ↓reduceIte]
  exact .modifyData _

end Specs

end Neutrino.Tasks
