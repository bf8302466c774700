import Neutrino.Tasks.Scheduler

namespace Neutrino.Tasks

open Library

/-- The places in `sched_cycle` between which other processors may run: one before each section
    under `gtq_lock`, each move of a slot, and each step on the processor's own data. -/
inductive Pc
  | outside | reap | decide | idleTest | idleAssign | busyTest | useNext | put | fillCurrent
  | fillNext | finish
  deriving DecidableEq, Repr

structure Core where
  slots : Cpu
  pc : Pc
  deriving DecidableEq, Repr

/-- One atomic step of a processor. The step out of `outside` is the tick that enters
    `sched_cycle`. -/
def coreStep (core : Core) : KernelM Core :=
  let cpu := core.slots
  match core.pc with
  | .outside => pure ⟨cpu, .reap⟩
  | .reap => do return ⟨← reapZombie cpu, .decide⟩
  | .decide => pure ⟨cpu, if cpuIsIdle cpu then .idleTest else .busyTest⟩
  | .idleTest => do return ⟨cpu, if ← queueIsEmpty then .finish else .idleAssign⟩
  | .idleAssign => do return ⟨{ cpu with current := ← queueAssign true cpu.id }, .finish⟩
  | .busyTest => do return ⟨cpu, if ← queueIsEmpty then .useNext else .put⟩
  | .useNext => do return ⟨← useNextSlot cpu, .finish⟩
  | .put => do
    putCurrent cpu
    return ⟨cpu, .fillCurrent⟩
  | .fillCurrent => do return ⟨← fillCurrent cpu, .fillNext⟩
  | .fillNext => do return ⟨← fillNext cpu, .finish⟩
  | .finish => do return ⟨← markRunning cpu, .outside⟩

/-- A processor that is not disturbed until it leaves `sched_cycle`. -/
def runToOutside : Nat → Core → KernelM Core
  | 0, core => pure core
  | fuel + 1, core =>
    if core.pc = .outside then pure core else do runToOutside fuel (← coreStep core)

theorem runToOutside_eq_schedCycle (cpu : Cpu) :
    runToOutside 8 ⟨cpu, .reap⟩ = do return ⟨← schedCycle cpu, .outside⟩ := by
  simp only [runToOutside, coreStep, schedCycle, pickTasks, fillIdle, rotateBusy, reduceCtorEq,
    ↓reduceIte, bind_assoc, pure_bind]
  congr 1
  funext mid
  cases cpuIsIdle mid
  · simp only [Bool.false_eq_true, ↓reduceIte, reduceCtorEq, bind_assoc, pure_bind]
    congr 1
    funext empty
    cases empty <;> simp
  · simp only [↓reduceIte, reduceCtorEq, bind_assoc, pure_bind]
    congr 1
    funext empty
    cases empty <;> simp

/-- Everything a step of a processor can do. -/
inductive CoreMove (g : Guarded LockName Kernel) : Core → Core → Kernel → Prop
  | enter (cpu : Cpu) : CoreMove g ⟨cpu, .outside⟩ ⟨cpu, .reap⟩ g.data
  | spare (cpu : Cpu) (alive : ∀ c, cpu.current = some c → g.data.status c ≠ .zombie) :
      CoreMove g ⟨cpu, .reap⟩ ⟨cpu, .decide⟩ g.data
  | destroy (cpu : Cpu) (c : TaskRef) (calls : Nat) (runs : cpu.current = some c) :
      CoreMove g ⟨cpu, .reap⟩ ⟨{ cpu with current := none }, .decide⟩
        { g.data.drop calls with destroyed := g.data.destroyed ++ [c] }
  | idle (cpu : Cpu) (rests : cpuIsIdle cpu = true) :
      CoreMove g ⟨cpu, .decide⟩ ⟨cpu, .idleTest⟩ g.data
  | busy (cpu : Cpu) (works : cpuIsIdle cpu = false) :
      CoreMove g ⟨cpu, .decide⟩ ⟨cpu, .busyTest⟩ g.data
  | idleEmpty (cpu : Cpu) : CoreMove g ⟨cpu, .idleTest⟩ ⟨cpu, .finish⟩ g.data
  | idleQueued (cpu : Cpu) : CoreMove g ⟨cpu, .idleTest⟩ ⟨cpu, .idleAssign⟩ g.data
  | idleNone (cpu : Cpu) :
      CoreMove g ⟨cpu, .idleAssign⟩ ⟨{ cpu with current := none }, .finish⟩ g.data
  | idleSome (cpu : Cpu) (t : TaskRef) (before after : List TaskRef)
      (queue : g.data.gtq = before ++ t :: after) (picked : pickable g t = true) :
      CoreMove g ⟨cpu, .idleAssign⟩ ⟨{ cpu with current := some t }, .finish⟩
        (g.data.take t cpu.id (before ++ after))
  | busyEmpty (cpu : Cpu) : CoreMove g ⟨cpu, .busyTest⟩ ⟨cpu, .useNext⟩ g.data
  | busyQueued (cpu : Cpu) : CoreMove g ⟨cpu, .busyTest⟩ ⟨cpu, .put⟩ g.data
  | alone (cpu : Cpu) (free : cpu.next = none) :
      CoreMove g ⟨cpu, .useNext⟩ ⟨cpu, .finish⟩ g.data
  | promote (cpu : Cpu) (n : TaskRef) (empty : cpu.current = none) (filled : cpu.next = some n) :
      CoreMove g ⟨cpu, .useNext⟩ ⟨{ cpu with current := some n, next := none }, .finish⟩ g.data
  | swap (cpu : Cpu) (c n : TaskRef) (runs : cpu.current = some c) (filled : cpu.next = some n) :
      CoreMove g ⟨cpu, .useNext⟩ ⟨{ cpu with current := some n, next := some c }, .finish⟩
        (g.data.park c)
  | putNone (cpu : Cpu) (empty : cpu.current = none) :
      CoreMove g ⟨cpu, .put⟩ ⟨cpu, .fillCurrent⟩ g.data
  | putSome (cpu : Cpu) (c : TaskRef) (runs : cpu.current = some c) :
      CoreMove g ⟨cpu, .put⟩ ⟨cpu, .fillCurrent⟩ (g.data.put c)
  | drained (cpu : Cpu) (free : cpu.next = none)
      (nothing : ∀ t ∈ g.data.gtq, pickable g t = false) :
      CoreMove g ⟨cpu, .fillCurrent⟩ ⟨{ cpu with current := none }, .fillNext⟩ g.data
  | refill (cpu : Cpu) (t : TaskRef) (before after : List TaskRef) (free : cpu.next = none)
      (queue : g.data.gtq = before ++ t :: after) (picked : pickable g t = true) :
      CoreMove g ⟨cpu, .fillCurrent⟩ ⟨{ cpu with current := some t }, .fillNext⟩
        (g.data.take t cpu.id (before ++ after))
  | advance (cpu : Cpu) (n : TaskRef) (filled : cpu.next = some n) :
      CoreMove g ⟨cpu, .fillCurrent⟩ ⟨{ cpu with current := some n, next := none }, .fillNext⟩ g.data
  | nextNone (cpu : Cpu) :
      CoreMove g ⟨cpu, .fillNext⟩ ⟨{ cpu with next := none }, .finish⟩ g.data
  | nextSome (cpu : Cpu) (t : TaskRef) (before after : List TaskRef)
      (queue : g.data.gtq = before ++ t :: after) (picked : pickable g t = true) :
      CoreMove g ⟨cpu, .fillNext⟩ ⟨{ cpu with next := some t }, .finish⟩
        (g.data.take t cpu.id (before ++ after))
  | finish (cpu : Cpu) :
      CoreMove g ⟨cpu, .finish⟩ ⟨{ cpu with current := some (cpu.current.getD cpu.idle) }, .outside⟩
        (g.data.setStatus (cpu.current.getD cpu.idle) .running)

section Moves

variable {g g' : Guarded LockName Kernel} {cpu : Cpu} {core : Core}

theorem reap_moves (free : CycleFree g.held) (taken : coreStep ⟨cpu, .reap⟩ g = .ok (core, g')) :
    ∃ k, g' = g.withData k ∧ CoreMove g ⟨cpu, .reap⟩ core k := by
  obtain ⟨after, middle, reaped, last⟩ := bind_ok taken
  cases last
  rcases reapZombie_cases cpu free.destroyFree with
    ⟨alive, returns⟩ | ⟨c, calls, runs, zombie, returns⟩
  · cases returns.unique reaped
    exact ⟨_, rfl, .spare cpu alive⟩
  · cases returns.unique reaped
    exact ⟨_, rfl, .destroy cpu c calls runs⟩

theorem test_moves (gtq : g.held .gtq = false) {yes no : Core}
    (taken : (do return if ← queueIsEmpty then yes else no : KernelM Core) g = .ok (core, g')) :
    g' = g.withData g.data ∧ (core = yes ∨ core = no) := by
  have step : Returns g (do return if ← queueIsEmpty then yes else no)
      (if g.data.gtq.isEmpty then yes else no) g.data :=
    (queueIsEmpty_returns gtq).bind (.pure _)
  cases step.unique taken
  refine ⟨rfl, ?_⟩
  split
  · exact .inl rfl
  · exact .inr rfl

theorem assign_moves (free : QueueFree g.held) {ignoreAffinity : Bool} {cpuId : BitVec 16}
    {f : Option TaskRef → Core}
    (taken : (do return f (← queueAssign ignoreAffinity cpuId) : KernelM Core) g = .ok (core, g')) :
    (core = f none ∧ g' = g.withData g.data ∧ ∀ t ∈ g.data.gtq, pickable g t = false) ∨
      ∃ before t after, g.data.gtq = before ++ t :: after ∧ pickable g t = true ∧
        core = f (some t) ∧ g' = g.withData (g.data.take t cpuId (before ++ after)) := by
  rcases queueAssign_cases free ignoreAffinity cpuId with
    ⟨nothing, returns⟩ | ⟨before, t, after, queue, picked, _, returns⟩
  · have step : Returns g (do return f (← queueAssign ignoreAffinity cpuId)) (f none) g.data :=
      returns.bind (.pure _)
    cases step.unique taken
    exact .inl ⟨rfl, rfl, nothing⟩
  · have step : Returns g (do return f (← queueAssign ignoreAffinity cpuId)) (f (some t))
        (g.data.take t cpuId (before ++ after)) := returns.bind (.pure _)
    cases step.unique taken
    exact .inr ⟨before, t, after, queue, picked, rfl, rfl⟩

theorem cpuNext_ok {after : Cpu} {n : TaskRef} (filled : cpu.next = some n)
    (taken : cpuNext cpu g = .ok (after, g')) :
    after = { cpu with current := some n, next := none } ∧ g' = g.withData g.data := by
  simp only [cpuNext, filled] at taken
  obtain ⟨free, -⟩ := retain_ok taken
  have returns : Returns g (retain (.task n) (pure { cpu with current := some n, next := none }))
      { cpu with current := some n, next := none } g.data := .retain free (.pure _)
  cases returns.unique taken
  exact ⟨rfl, rfl⟩

theorem cpuSwapTask_ok {after : Cpu} {c n : TaskRef} (runs : cpu.current = some c)
    (filled : cpu.next = some n) (taken : cpuSwapTask cpu g = .ok (after, g')) :
    after = { cpu with current := some n, next := some c } ∧ g' = g.withData (g.data.park c) := by
  simp only [cpuSwapTask, runs, filled] at taken
  obtain ⟨first, inner, inside, -⟩ := retain_ok taken
  obtain ⟨second, -⟩ := retain_ok inside
  have returns : Returns g (retain (.task c) (retain (.task n) do
      leaveProcessor c
      return { cpu with current := some n, next := some c }))
      { cpu with current := some n, next := some c } (g.data.park c) :=
    .retain first (.retain second (.bind (leaveProcessor_returns c) (.pure _)))
  cases returns.unique taken
  exact ⟨rfl, rfl⟩

theorem useNext_moves (taken : coreStep ⟨cpu, .useNext⟩ g = .ok (core, g')) :
    ∃ k, g' = g.withData k ∧ CoreMove g ⟨cpu, .useNext⟩ core k := by
  obtain ⟨after, middle, moved, last⟩ := bind_ok taken
  cases last
  unfold useNextSlot at moved
  cases slot : cpu.next with
  | none =>
    simp only [cpuIsNextFree, slot, beq_self_eq_true, ↓reduceIte] at moved
    cases moved
    exact ⟨_, rfl, .alone cpu slot⟩
  | some n =>
    have busy : cpuIsNextFree cpu = false := by simp [cpuIsNextFree, slot]
    simp only [busy, Bool.false_eq_true, ↓reduceIte] at moved
    cases runs : cpu.current with
    | none =>
      simp only [runs, ↓reduceIte] at moved
      obtain ⟨rfl, rfl⟩ := cpuNext_ok slot moved
      exact ⟨_, rfl, .promote cpu n runs slot⟩
    | some c =>
      simp only [runs, reduceCtorEq, ↓reduceIte] at moved
      obtain ⟨rfl, rfl⟩ := cpuSwapTask_ok runs slot moved
      exact ⟨_, rfl, .swap cpu c n runs slot⟩

theorem put_moves (free : QueueFree g.held) (taken : coreStep ⟨cpu, .put⟩ g = .ok (core, g')) :
    ∃ k, g' = g.withData k ∧ CoreMove g ⟨cpu, .put⟩ core k := by
  obtain ⟨_, middle, moved, last⟩ := bind_ok taken
  cases last
  unfold putCurrent at moved
  cases runs : cpu.current with
  | none =>
    rw [runs] at moved
    cases moved
    exact ⟨_, rfl, .putNone cpu runs⟩
  | some c =>
    rw [runs] at moved
    cases (queuePut_returns free c).unique moved
    exact ⟨_, rfl, .putSome cpu c runs⟩

theorem fillCurrent_moves (free : QueueFree g.held)
    (taken : coreStep ⟨cpu, .fillCurrent⟩ g = .ok (core, g')) :
    ∃ k, g' = g.withData k ∧ CoreMove g ⟨cpu, .fillCurrent⟩ core k := by
  simp only [coreStep, fillCurrent] at taken
  cases slot : cpu.next with
  | none =>
    simp only [cpuIsNextFree, slot, beq_self_eq_true, ↓reduceIte, bind_assoc, pure_bind] at taken
    rcases assign_moves free taken with
      ⟨rfl, rfl, nothing⟩ | ⟨before, t, after, queue, picked, rfl, rfl⟩
    · have move := CoreMove.drained cpu slot nothing
      rw [slot] at move
      exact ⟨_, rfl, move⟩
    · have move := CoreMove.refill cpu t before after slot queue picked
      rw [slot] at move
      exact ⟨_, rfl, move⟩
  | some n =>
    have busy : cpuIsNextFree cpu = false := by simp [cpuIsNextFree, slot]
    simp only [busy, Bool.false_eq_true, ↓reduceIte] at taken
    obtain ⟨after, middle, moved, last⟩ := bind_ok taken
    cases last
    obtain ⟨rfl, rfl⟩ := cpuNext_ok slot moved
    exact ⟨_, rfl, .advance cpu n slot⟩

theorem coreStep_moves {before : Core} (free : CycleFree g.held)
    (taken : coreStep before g = .ok (core, g')) :
    ∃ k, g' = g.withData k ∧ CoreMove g before core k := by
  obtain ⟨cpu, pc⟩ := before
  cases pc with
  | outside =>
    cases taken
    exact ⟨_, rfl, .enter cpu⟩
  | reap => exact reap_moves free taken
  | decide =>
    simp only [coreStep] at taken
    cases taken
    cases rests : cpuIsIdle cpu with
    | true => exact ⟨_, rfl, .idle cpu rests⟩
    | false => exact ⟨_, rfl, .busy cpu rests⟩
  | idleTest =>
    have tested : g' = g.withData g.data ∧ (core = ⟨cpu, .finish⟩ ∨ core = ⟨cpu, .idleAssign⟩) :=
      test_moves free.gtq (by simpa only [coreStep, apply_ite (Core.mk cpu)] using taken)
    rcases tested with ⟨rfl, rfl | rfl⟩
    · exact ⟨_, rfl, .idleEmpty cpu⟩
    · exact ⟨_, rfl, .idleQueued cpu⟩
  | idleAssign =>
    rcases assign_moves free.toQueueFree taken with
      ⟨rfl, rfl, nothing⟩ | ⟨before, t, after, queue, picked, rfl, rfl⟩
    · exact ⟨_, rfl, .idleNone cpu⟩
    · exact ⟨_, rfl, .idleSome cpu t before after queue picked⟩
  | busyTest =>
    have tested : g' = g.withData g.data ∧ (core = ⟨cpu, .useNext⟩ ∨ core = ⟨cpu, .put⟩) :=
      test_moves free.gtq (by simpa only [coreStep, apply_ite (Core.mk cpu)] using taken)
    rcases tested with ⟨rfl, rfl | rfl⟩
    · exact ⟨_, rfl, .busyEmpty cpu⟩
    · exact ⟨_, rfl, .busyQueued cpu⟩
  | useNext => exact useNext_moves taken
  | put => exact put_moves free.toQueueFree taken
  | fillCurrent => exact fillCurrent_moves free.toQueueFree taken
  | fillNext =>
    simp only [coreStep, fillNext, bind_assoc, pure_bind] at taken
    rcases assign_moves free.toQueueFree taken with
      ⟨rfl, rfl, nothing⟩ | ⟨before, t, after, queue, picked, rfl, rfl⟩
    · exact ⟨_, rfl, .nextNone cpu⟩
    · exact ⟨_, rfl, .nextSome cpu t before after queue picked⟩
  | finish =>
    cases taken
    exact ⟨_, rfl, .finish cpu⟩

theorem cpuNext_free {n : TaskRef} (filled : cpu.next = some n) (free : g.held (.task n) = false) :
    Returns g (cpuNext cpu) { cpu with current := some n, next := none } g.data := by
  simp only [cpuNext, filled]
  exact .retain free (.pure _)

theorem useNextSlot_returns
    (current : ∀ c, cpu.current = some c → g.held (.task c) = false ∧ cpu.next ≠ some c)
    (next : ∀ n, cpu.next = some n → g.held (.task n) = false) :
    ∃ after k, Returns g (useNextSlot cpu) after k := by
  cases slot : cpu.next with
  | none =>
    simp only [useNextSlot, cpuIsNextFree, slot, beq_self_eq_true, ↓reduceIte]
    exact ⟨_, _, .pure _⟩
  | some n =>
    have busy : cpuIsNextFree cpu = false := by simp [cpuIsNextFree, slot]
    cases runs : cpu.current with
    | none =>
      simp only [useNextSlot, busy, runs, Bool.false_eq_true, ↓reduceIte]
      exact ⟨_, _, cpuNext_free slot (next n slot)⟩
    | some c =>
      simp only [useNextSlot, busy, runs, Bool.false_eq_true, ↓reduceIte, reduceCtorEq,
        cpuSwapTask, slot]
      obtain ⟨unlocked, distinct⟩ := current c runs
      have other : n ≠ c := fun same => distinct (by rw [slot, same])
      refine ⟨_, _, .retain unlocked (.retain ?_ (.bind (leaveProcessor_returns c) (.pure _)))⟩
      simp [other, next n slot]

theorem coreStep_returns {before : Core} (free : CycleFree g.held)
    (current : ∀ c, before.pc = .useNext → before.slots.current = some c →
      g.held (.task c) = false ∧ before.slots.next ≠ some c)
    (next : ∀ n, before.slots.next = some n → g.held (.task n) = false) :
    ∃ core k, Returns g (coreStep before) core k := by
  have assigns : ∀ ignoreAffinity (f : Option TaskRef → Core), ∃ core k,
      Returns g (do return f (← queueAssign ignoreAffinity before.slots.id)) core k := by
    intro ignoreAffinity f
    rcases queueAssign_cases free.toQueueFree ignoreAffinity before.slots.id with
      ⟨_, returns⟩ | ⟨_, _, _, _, _, _, returns⟩
    · exact ⟨_, _, .bind returns (.pure _)⟩
    · exact ⟨_, _, .bind returns (.pure _)⟩
  obtain ⟨cpu, pc⟩ := before
  cases pc with
  | outside | decide => exact ⟨_, _, .pure _⟩
  | reap =>
    rcases reapZombie_cases cpu free.destroyFree with
      ⟨_, returns⟩ | ⟨_, _, _, _, returns⟩
    · exact ⟨_, _, .bind returns (.pure _)⟩
    · exact ⟨_, _, .bind returns (.pure _)⟩
  | idleTest => exact ⟨_, _, .bind (queueIsEmpty_returns free.gtq) (.pure _)⟩
  | idleAssign => exact assigns true fun a => ⟨{ cpu with current := a }, .finish⟩
  | busyTest => exact ⟨_, _, .bind (queueIsEmpty_returns free.gtq) (.pure _)⟩
  | useNext =>
    obtain ⟨after, k, returns⟩ := useNextSlot_returns (fun c => current c rfl) next
    exact ⟨_, _, .bind returns (.pure _)⟩
  | put =>
    cases runs : cpu.current with
    | none =>
      simp only [coreStep, putCurrent, runs]
      exact ⟨_, _, .bind (.pure _) (.pure _)⟩
    | some c =>
      simp only [coreStep, putCurrent, runs]
      exact ⟨_, _, .bind (queuePut_returns free.toQueueFree c) (.pure _)⟩
  | fillCurrent =>
    cases slot : cpu.next with
    | none =>
      simp only [coreStep, fillCurrent, cpuIsNextFree, slot, beq_self_eq_true, ↓reduceIte, bind_assoc,
        pure_bind]
      exact assigns true fun a => ⟨{ cpu with current := a, next := none }, .fillNext⟩
    | some n =>
      have busy : cpuIsNextFree cpu = false := by simp [cpuIsNextFree, slot]
      simp only [coreStep, fillCurrent, busy, Bool.false_eq_true, ↓reduceIte]
      exact ⟨_, _, .bind (cpuNext_free slot (next n slot)) (.pure _)⟩
  | fillNext =>
    simp only [coreStep, fillNext, bind_assoc, pure_bind]
    exact assigns false fun a => ⟨{ cpu with next := a }, .finish⟩
  | finish => exact ⟨_, _, .bind (.bind (.modifyData _) (.pure _)) (.pure _)⟩

end Moves

end Neutrino.Tasks
