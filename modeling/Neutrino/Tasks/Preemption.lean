import Neutrino.Tasks.Interrupt
import Neutrino.Tasks.KernelCalls
import Neutrino.Tasks.SmpIdle

namespace Neutrino.Tasks

open Library

/-- One processor whose tasks run kernel code step by step: `todo` is what is left of the call
    that a task is in, and `stuck` the lock that the timer handler waits for. -/
structure Preempt extends Smp 1 where
  todo : TaskRef → List Op
  stuck : Option LockName

inductive PreemptEvent
  | call (call : KernelCall)
  | run
  | terminate
  | tick (captured : Processor)
  deriving DecidableEq, Repr

namespace Preempt

def cpu (p : Preempt) : Cpu := (p.cores 0).slots

/-- `_kstart` has started the task of `neutrino_main` before it enables interrupts. -/
def boot (prior : TaskRef → Task) (idle neutrino : TaskRef) (cpuIdle neutrinoMain : W64)
    (growth : List Nat) : Preempt :=
  let m : Smp 1 := .init prior (fun _ => idle) cpuIdle growth
  { m with
    state := m.state.withData (m.state.data.start neutrino neutrinoMain)
    started := [neutrino]
    todo := fun _ => []
    stuck := none }

/-- The tasks that this one has made and not yet started. -/
def Fresh (maker : TaskRef → TaskRef) (p : Preempt) (x t : TaskRef) : Prop :=
  maker t = x ∧ t ∉ p.started ∧ ¬ p.isIdle t

instance (maker : TaskRef → TaskRef) (p : Preempt) (x t : TaskRef) : Decidable (p.Fresh maker x t) :=
  inferInstanceAs (Decidable (maker t = x ∧ t ∉ p.started ∧ ¬ p.isIdle t))

instance (fresh : TaskRef → Prop) [DecidablePred fresh] (call : KernelCall) :
    Decidable (call.Allowed fresh) :=
  match call with
  | .spaceMap t _ _ | .schedStart t _ _ => inferInstanceAs (Decidable (fresh t))
  | .heap _ | .vmm _ | .newChannel _ _ _ _ _ | .destroyChannel _ _ _ _ | .channel _ | .enter _
  | .leave _ => inferInstanceAs (Decidable True)

def record (p : Preempt) : Op → Preempt
  | .lockNew t _ => { p with starting := t :: p.starting, started := t :: p.started }
  | .append t => { p with starting := p.starting.erase t, releasing := t :: p.releasing }
  | .unlockNew t => { p with releasing := p.releasing.erase t }
  | .acquire _ | .release _ => p

/-- A task calls into the kernel, takes one step there, or ends, or the timer interrupts it.
    `maker` tells which task calls `NewTask` for a task: it alone knows the new task until it has
    started it. -/
def act (maker : TaskRef → TaskRef) (p : Preempt) (event : PreemptEvent) : Option Preempt :=
  match event, live p.cpu with
  | .call call, some x =>
    if p.state.data.status x ≠ .zombie ∧ p.todo x = [] ∧ call.Allowed (p.Fresh maker x) then
      some { p with todo := Function.update p.todo x call.ops }
    else none
  | .run, some x =>
    match p.todo x with
    | op :: rest => (op.exec p.state).toOption.map fun (_, g) =>
        { p.record op with state := g, todo := Function.update p.todo x rest }
    | [] => none
  | .terminate, some x =>
    if p.todo x = [] then
      (schedTerminate p.cpu p.state).toOption.map fun (_, g) => { p with state := g }
    else none
  | .tick captured, _ =>
    match interruptHandler p.cpu captured p.state with
    | .ok ((cpu, _), g) => some { p with state := g, cores := fun _ => ⟨cpu, .outside⟩ }
    | .error l => some { p with stuck := some l }
  | _, none => none

/-- A handler that waits for a lock waits forever. -/
def step (maker : TaskRef → TaskRef) (p : Preempt) (event : PreemptEvent) : Option Preempt :=
  if p.stuck = none then p.act maker event else none

/-- The running task is in no section under `gtq_lock` or `agent_channel_lock`. -/
def Quiet (p : Preempt) : Prop :=
  ∀ x, p.cpu.current = some x →
    inside Op.touch .gtq (p.todo x) = false ∧ inside Op.touch .agentChannel (p.todo x) = false

instance (p : Preempt) : Decidable p.Quiet :=
  match runs : p.cpu.current with
  | none => isTrue fun x runs' => by rw [runs] at runs'; cases runs'
  | some x => decidable_of_iff
      (inside Op.touch .gtq (p.todo x) = false ∧ inside Op.touch .agentChannel (p.todo x) = false)
      ⟨fun quiet y runs' => by rw [runs] at runs'; cases runs'; exact quiet, fun quiet => quiet x runs⟩

/-- A tick that switches tasks finds the running task in no such section. -/
def Undisturbed (p : Preempt) : PreemptEvent → Prop
  | .tick captured => passesGuard p.state captured = true → p.Quiet
  | _ => True

instance (p : Preempt) (event : PreemptEvent) : Decidable (p.Undisturbed event) :=
  match event with
  | .tick captured => inferInstanceAs (Decidable (passesGuard p.state captured = true → p.Quiet))
  | .call _ | .run | .terminate => inferInstanceAs (Decidable True)

end Preempt

namespace Smp

variable {m : Smp 1}

theorem Single.congr (single : m.Single) (state : Guarded LockName Kernel)
    (queue : state.data.gtq = m.state.data.gtq)
    (status : ∀ t, state.data.status t = m.state.data.status t)
    (tasks : ∀ t, state.held (.task t) = m.state.held (.task t)) (free : CycleFree state.held) :
    Single { m with state := state } where
  placed := ⟨free, fun t ordinary => by simpa [total, queue] using single.placed.bound t ordinary⟩
  apart := ⟨single.apart.distinct, single.apart.fresh,
    fun i => (single.apart.plain i).of_queue (by simpa [queue] using (single.apart.plain i).queue),
    single.apart.consistent⟩
  locks := by
    refine ⟨?_, ?_, ?_, single.locks.once⟩
    · simpa only [tasks] using single.locks.held
    · simpa only [tasks] using single.locks.starting
    · simpa only [tasks, queue] using single.locks.releasing
  tracked := single.tracked.mono fun c _ _ =>
    ⟨status c, by rw [queue]; exact fun member => member, by rw [tasks]; exact fun unlocked => unlocked⟩

theorem Single.step_returns (single : m.Single) :
    ∃ core k, Returns m.state (coreStep (m.cores 0)) core k := by
  have next : ∀ t, (m.cores 0).slots.next = some t → t ∈ (m.cores 0).owned := by
    intro t filled
    simp [Core.owned, filled]
  refine coreStep_returns single.placed.locks ?_ ?_
  · intro c pc runs
    have ordinary := single.ordinary_of_busy (.inr pc) runs
    refine ⟨single.unlocked_of_owned ordinary (by simp [Core.owned, pc, runs]), fun filled => ?_⟩
    have bound := single.placed.bound c ordinary
    have twice : (m.cores 0).owned.count c = 2 := by simp [Core.owned, pc, runs, filled]
    simp only [total, Fin.sum_univ_one, twice] at bound
    split at bound <;> omega
  · intro n filled
    exact single.unlocked_of_owned ((single.apart.plain 0).next n filled) (next n filled)

theorem Single.run_returns (single : m.Single) (fuel : Nat) :
    ∃ core k, Returns m.state (runToOutside fuel (m.cores 0)) core k ∧
      core.slots.idle = (m.cores 0).slots.idle ∧
      Single { m with state := m.state.withData k, cores := fun _ => core } := by
  have same : ∀ m : Smp 1, (fun _ => m.cores 0) = m.cores := by
    intro m
    funext i
    rw [Subsingleton.elim i 0]
  induction fuel generalizing m with
  | zero => exact ⟨_, _, .pure _, rfl, by rw [Guarded.withData_self, same]; exact single⟩
  | succ fuel ih =>
    unfold runToOutside
    by_cases outside : (m.cores 0).pc = .outside
    · rw [if_pos outside]
      exact ⟨_, _, .pure _, rfl, by rw [Guarded.withData_self, same]; exact single⟩
    · rw [if_neg outside]
      obtain ⟨core, k, returns⟩ := single.step_returns
      obtain ⟨k', kept, move⟩ := coreStep_moves single.placed.locks returns
      cases congrArg Guarded.data kept
      have after := (Move.core 0 core k move).single single
      obtain ⟨last, k'', rest, idle, final⟩ := ih after
      simp only [Function.update_self] at rest idle
      exact ⟨last, k'', returns.bind rest, idle.trans move.sameIdle, final⟩

theorem Single.cycle_returns (single : m.Single) (outside : (m.cores 0).pc = .outside) :
    ∃ cpu k, Returns m.state (schedCycle (m.cores 0).slots) cpu k ∧
      cpu.idle = (m.cores 0).slots.idle ∧
      Single { m with state := m.state.withData k, cores := fun _ => ⟨cpu, .outside⟩ } := by
  have enter : CoreMove m.state (m.cores 0) ⟨(m.cores 0).slots, .reap⟩ m.state.data := by
    have move := CoreMove.enter (g := m.state) (m.cores 0).slots
    rwa [← outside] at move
  have entered := (Move.core 0 _ _ enter).single single
  obtain ⟨core, k, returns, idle, final⟩ := entered.run_returns 8
  simp only [Function.update_self, Guarded.withData_self, runToOutside_eq_schedCycle] at returns idle
  obtain ⟨cpu, middle, cycled, last⟩ := bind_ok returns
  cases last
  exact ⟨cpu, k, cycled, idle, final⟩

theorem Single.current_started (single : m.Single) (outside : (m.cores 0).pc = .outside)
    {c : TaskRef} (runs : (m.cores 0).slots.current = some c) : c ∈ m.started ∨ m.isIdle c := by
  by_cases ordinary : m.isIdle c
  · exact .inr ordinary
  · refine .inl ?_
    by_contra fresh
    exact single.ne_of_fresh runs (by simp [outside]) ordinary fresh rfl

end Smp

def taskLocks (held : LockName → Bool) : LockName → Bool
  | .task t => held (.task t)
  | _ => false

theorem taskLocks_free (held : LockName → Bool) : CycleFree (taskLocks held) :=
  ⟨⟨⟨rfl, rfl⟩, rfl⟩, rfl⟩

def trackedLocks (held : LockName → Bool) (l : LockName) : Bool := l.tracked && held l

/-- The locks of the handler that belong to no task. -/
def LockName.shared : LockName → Bool
  | .kalloc | .vmm | .gtq | .agentChannel => true
  | _ => false

namespace Preempt

variable {maker : TaskRef → TaskRef} {p next : Preempt}

/-- The scheduler's side of the machine. -/
def view (p : Preempt) : Smp 1 :=
  { p.toSmp with state := ⟨taskLocks p.state.held, p.state.data⟩ }

structure Invariant (maker : TaskRef → TaskRef) (p : Preempt) : Prop where
  single : p.view.Single
  outside : (p.cores 0).pc = .outside
  accounted : Accounted Op.touch (trackedLocks p.state.held) p.todo
  alone : ∀ l x, l.shared = true → inside Op.touch l (p.todo x) = true → p.cpu.current = some x
  ready : ∀ x, Ready (p.Fresh maker x) (fun t => maker t = x ∧ t ∈ p.starting)
    (fun t => maker t = x ∧ t ∈ p.releasing) (p.todo x)
  stuck : p.stuck = none

section

variable (inv : p.Invariant maker)
include inv

theorem Invariant.shared_free {l : LockName} (shared : l.shared = true)
    (out : ∀ x, p.cpu.current = some x → inside Op.touch l (p.todo x) = false) :
    p.state.held l = false := by
  by_contra locked
  have tracked : trackedLocks p.state.held l = true := by
    rw [Bool.not_eq_false] at locked
    cases l <;> simp_all [trackedLocks, LockName.tracked, LockName.shared]
  obtain ⟨x, within⟩ := inv.accounted.owner l tracked
  rw [out x (inv.alone l x shared within)] at within
  cases within

theorem Invariant.cycleFree {captured : Processor} (passes : passesGuard p.state captured = true) (quiet : p.Quiet) :
    CycleFree p.state.held := by
  obtain ⟨⟨-, kalloc⟩, vmm⟩ : ((_ ∧ p.state.held .kalloc = false) ∧ p.state.held .vmm = false) := by
    simpa [passesGuard] using passes
  exact ⟨⟨⟨kalloc, vmm⟩, inv.shared_free rfl fun x runs => (quiet x runs).1⟩,
    inv.shared_free rfl fun x runs => (quiet x runs).2⟩

theorem Invariant.space_free {t : TaskRef} (known : t ∈ p.started ∨ p.isIdle t) : p.state.held (.space t) = false := by
  by_contra locked
  rw [Bool.not_eq_false] at locked
  obtain ⟨x, within⟩ := inv.accounted.owner (.space t) (by simpa [trackedLocks, LockName.tracked] using locked)
  obtain ⟨-, unstarted, ordinary⟩ := (inv.ready x).fresh_of_inside within
  rcases known with started | idle
  · exact unstarted started
  · exact ordinary idle

theorem Invariant.saves (g : Guarded LockName Kernel) (same : g.data = p.state.data) (captured : Processor) :
    ∃ k, Returns g (saveCurrent p.cpu captured) () k ∧ k.gtq = p.state.data.gtq ∧
      ∀ t, k.status t = p.state.data.status t := by
  cases runs : p.cpu.current with
  | none =>
    refine ⟨p.state.data, ?_, rfl, fun _ => rfl⟩
    simp only [saveCurrent, runs, ← same]
    exact .pure _
  | some c =>
    have tracked := inv.single.tracked
    simp only [Core.Tracked, view, inv.outside] at tracked
    have ran := tracked c runs
    rw [← same] at ran
    refine ⟨_, saveCurrent_returns runs ran, ?_, ?_⟩
    · simp [same]
    · simp [same]

theorem Invariant.handler_returns {captured : Processor} (passes : passesGuard p.state captured = true)
    (quiet : p.Quiet) :
    ∃ cpu processor k, Returns p.state (interruptHandler p.cpu captured) (cpu, processor) k ∧
      cpu.idle = p.cpu.idle ∧
      Smp.Single { p.view with
        state := ⟨taskLocks p.state.held, k⟩, cores := fun _ => ⟨cpu, .outside⟩ } := by
  have free := inv.cycleFree passes quiet
  obtain ⟨saved, saves, queue, status⟩ := inv.saves (p.state.acquire .isSwitching) rfl captured
  have held : CycleFree (p.state.acquire .isSwitching).held :=
    ⟨⟨⟨by simp [free.kalloc], by simp [free.vmm]⟩, by simp [free.gtq]⟩, by simp [free.agentChannel]⟩
  have before := inv.single.congr ((p.state.acquire .isSwitching).withData saved) queue status
    (fun t => by simp [view, taskLocks]) held
  obtain ⟨cpu, k, cycled, idle, after⟩ := before.cycle_returns inv.outside
  have final := after.congr ⟨taskLocks p.state.held, k⟩ rfl (fun _ => rfl)
    (fun t => by simp [taskLocks]) (taskLocks_free _)
  have known : cpu.current.getD cpu.idle ∈ p.started ∨ p.isIdle (cpu.current.getD cpu.idle) := by
    have isIdle : ∀ t, t = cpu.idle → p.isIdle t := fun t same => ⟨0, same.trans idle⟩
    cases runs : cpu.current with
    | none => exact .inr (isIdle _ rfl)
    | some c =>
      rcases after.current_started rfl runs with started | ⟨_, own⟩
      · exact .inl started
      · exact .inr (isIdle c own)
  have unlocked := inv.space_free known
  have switches : ∀ g : Guarded LockName Kernel, g.held (.space (cpu.current.getD cpu.idle)) = false →
      Returns g (spaceSwitch (cpu.current.getD cpu.idle)) () g.data :=
    fun g unlocked => .retain unlocked (.pure ())
  let frame := contextLoad (k.context (cpu.current.getD cpu.idle))
  have switched : Returns (p.state.acquire .isSwitching) (switchTasks p.cpu captured)
      (cpu, ⟨frame.1, frame.2⟩) k := by
    refine saves.bind (cycled.bind (.getData ((switches _ ?_).bind (.pure _))))
    simpa using unlocked
  exact ⟨cpu, _, k, interruptHandler_switches passes switched, idle, final⟩

end

section Steps

variable {x : TaskRef} {op : Op} {rest : List Op}

theorem trackedLocks_acquire (g : Guarded LockName Kernel) {l : LockName} (tracked : l.tracked = true) :
    trackedLocks (g.acquire l).held = Function.update (trackedLocks g.held) l true := by
  funext other
  by_cases same : other = l
  · simp [trackedLocks, same, tracked]
  · simp [trackedLocks, same]

theorem trackedLocks_release (g : Guarded LockName Kernel) {l : LockName} :
    trackedLocks (g.release l).held = Function.update (trackedLocks g.held) l false := by
  funext other
  by_cases same : other = l
  · simp [trackedLocks, same]
  · simp [trackedLocks, same]

theorem trackedLocks_acquire_other (g : Guarded LockName Kernel) {l : LockName}
    (other : l.tracked = false) : trackedLocks (g.acquire l).held = trackedLocks g.held := by
  funext l'
  by_cases same : l' = l
  · simp [trackedLocks, same, other]
  · simp [trackedLocks, same]

theorem trackedLocks_release_other (g : Guarded LockName Kernel) {l : LockName}
    (other : l.tracked = false) : trackedLocks (g.release l).held = trackedLocks g.held := by
  funext l'
  by_cases same : l' = l
  · simp [trackedLocks, same, other]
  · simp [trackedLocks, same]

theorem lock_ok {g g' : Guarded LockName Kernel} {l : LockName} (taken : lock l g = .ok ((), g')) :
    g.held l = false ∧ g' = g.acquire l := by
  unfold lock at taken
  split at taken
  · cases taken
  · rename_i free
    cases taken
    exact ⟨by simpa using free, rfl⟩

variable (inv : p.Invariant maker)
include inv

theorem Invariant.exec_accounted {g : Guarded LockName Kernel} (next : p.todo x = op :: rest)
    (taken : op.exec p.state = .ok ((), g)) :
    Accounted Op.touch (trackedLocks g.held) (Function.update p.todo x rest) := by
  cases op with
  | acquire l =>
    obtain ⟨free, rfl⟩ := lock_ok taken
    cases tracked : l.tracked with
    | true =>
      rw [trackedLocks_acquire _ tracked]
      exact inv.accounted.take next (by simp [Op.touch, tracked]) (by simp [trackedLocks, free])
    | false =>
      rw [trackedLocks_acquire_other _ tracked]
      exact inv.accounted.skip next (by simp [Op.touch, tracked])
  | release l =>
    cases taken
    cases tracked : l.tracked with
    | true =>
      rw [trackedLocks_release]
      exact inv.accounted.free next (by simp [Op.touch, tracked])
    | false =>
      rw [trackedLocks_release_other _ tracked]
      exact inv.accounted.skip next (by simp [Op.touch, tracked])
  | lockNew t entryPoint =>
    rw [startBegin_ok taken, Guarded.withData_held, trackedLocks_acquire_other _ rfl]
    exact inv.accounted.skip next rfl
  | append t =>
    cases taken
    exact inv.accounted.skip next rfl
  | unlockNew t =>
    cases taken
    rw [trackedLocks_release_other _ rfl]
    exact inv.accounted.skip next rfl

theorem Invariant.exec_single {g : Guarded LockName Kernel} (next : p.todo x = op :: rest)
    (taken : op.exec p.state = .ok ((), g)) :
    Smp.Single { (p.record op).toSmp with state := ⟨taskLocks g.held, g.data⟩ } := by
  have ready := inv.ready x
  rw [next] at ready
  cases op with
  | acquire l =>
    obtain ⟨-, rfl⟩ := lock_ok taken
    refine inv.single.congr _ rfl (fun _ => rfl) (fun t => ?_) (taskLocks_free _)
    have other : LockName.task t ≠ l := by
      rintro rfl
      exact ready.1
    simp [view, taskLocks, other]
  | release l =>
    cases taken
    refine inv.single.congr _ rfl (fun _ => rfl) (fun t => ?_) (taskLocks_free _)
    have other : LockName.task t ≠ l := by
      rintro rfl
      exact ready.1
    simp [view, taskLocks, other]
  | lockNew t entryPoint =>
    obtain ⟨-, fresh, ordinary⟩ := ready.1
    have move := Smp.Move.startBegin (m := p.view) t entryPoint ordinary fresh
    rw [startBegin_ok taken]
    refine (move.single inv.single).congr _ rfl (fun _ => rfl) (fun u => ?_) (taskLocks_free _)
    simp [view, taskLocks]
  | append t =>
    cases taken
    have move := Smp.Move.startPut (m := p.view) t ready.1.2
    exact (move.single inv.single).congr _ rfl (fun _ => rfl) (fun _ => rfl) (taskLocks_free _)
  | unlockNew t =>
    cases taken
    have move := Smp.Move.startEnd (m := p.view) t ready.1.2
    refine (move.single inv.single).congr _ rfl (fun _ => rfl) (fun u => ?_) (taskLocks_free _)
    simp [view, taskLocks]

theorem Invariant.record_ready (next : p.todo x = op :: rest) (y : TaskRef) :
    Ready ((p.record op).Fresh maker y) (fun t => maker t = y ∧ t ∈ (p.record op).starting)
      (fun t => maker t = y ∧ t ∈ (p.record op).releasing) (Function.update p.todo x rest y) := by
  have own := inv.ready x
  rw [next] at own
  by_cases same : y = x
  · subst same
    rw [Function.update_self]
    cases op with
    | acquire l | release l => exact own.2
    | lockNew t entryPoint =>
      refine own.2.mono ?_ ?_ fun _ member => member
      · rintro u ⟨⟨made, unstarted, ordinary⟩, other⟩
        exact ⟨made, by simp [record, other, unstarted], ordinary⟩
      · rintro u (⟨made, member⟩ | rfl)
        · exact ⟨made, List.mem_cons_of_mem _ member⟩
        · exact ⟨own.1.1, List.mem_cons_self⟩
    | append t =>
      refine own.2.mono (fun _ fresh => fresh) ?_ ?_
      · rintro u ⟨⟨made, member⟩, other⟩
        exact ⟨made, (List.mem_erase_of_ne other).mpr member⟩
      · rintro u (⟨made, member⟩ | rfl)
        · exact ⟨made, List.mem_cons_of_mem _ member⟩
        · exact ⟨own.1.1, List.mem_cons_self⟩
    | unlockNew t =>
      refine own.2.mono (fun _ fresh => fresh) (fun _ member => member) ?_
      rintro u ⟨⟨made, member⟩, other⟩
      exact ⟨made, (List.mem_erase_of_ne other).mpr member⟩
  · rw [Function.update_of_ne same]
    have others : ∀ {t u : TaskRef}, maker t = x → maker u = y → u ≠ t := by
      rintro t u first second rfl
      exact same (second.symm.trans first)
    cases op with
    | acquire l | release l => exact inv.ready y
    | lockNew t entryPoint =>
      refine (inv.ready y).mono ?_ (fun u => .imp_right (List.mem_cons_of_mem _)) fun _ member => member
      rintro u ⟨made, unstarted, ordinary⟩
      exact ⟨made, by simp [record, others own.1.1 made, unstarted], ordinary⟩
    | append t =>
      refine (inv.ready y).mono (fun _ fresh => fresh) ?_ fun u => .imp_right (List.mem_cons_of_mem _)
      rintro u ⟨made, member⟩
      exact ⟨made, (List.mem_erase_of_ne (others own.1.1 made)).mpr member⟩
    | unlockNew t =>
      refine (inv.ready y).mono (fun _ fresh => fresh) (fun _ member => member) ?_
      rintro u ⟨made, member⟩
      exact ⟨made, (List.mem_erase_of_ne (others own.1.1 made)).mpr member⟩

theorem Invariant.alone_update (runs : p.cpu.current = some x) (ops : List Op) (l : LockName) (y : TaskRef)
    (shared : l.shared = true)
    (within : inside Op.touch l (Function.update p.todo x ops y) = true) :
    p.cpu.current = some y := by
  by_cases same : y = x
  · rw [same, runs]
  · exact inv.alone l y shared (by simpa [same] using within)

theorem Invariant.call {call : KernelCall} (runs : p.cpu.current = some x) (done : p.todo x = [])
    (allowed : call.Allowed (p.Fresh maker x)) :
    Invariant maker { p with todo := Function.update p.todo x call.ops } where
  single := inv.single
  outside := inv.outside
  accounted := inv.accounted.call done call.ops_balanced
  alone := inv.alone_update runs call.ops
  ready y := by
    by_cases same : y = x
    · subst same
      simp only [Function.update_self]
      exact KernelCall.ready allowed
    · simp only [Function.update_of_ne same]
      exact inv.ready y
  stuck := inv.stuck

theorem Invariant.run {g : Guarded LockName Kernel} (runs : p.cpu.current = some x) (next : p.todo x = op :: rest)
    (taken : op.exec p.state = .ok ((), g)) :
    Invariant maker { p.record op with state := g, todo := Function.update p.todo x rest } := by
  have cores : (p.record op).cores = p.cores := by cases op <;> rfl
  have stuck : (p.record op).stuck = p.stuck := by cases op <;> rfl
  refine ⟨inv.exec_single next taken, ?_, inv.exec_accounted next taken, ?_, ?_, ?_⟩
  · simpa only [cores] using inv.outside
  · simpa only [cpu, cores] using inv.alone_update runs rest
  · exact inv.record_ready next
  · simpa only [stuck] using inv.stuck

theorem Invariant.terminate {g : Guarded LockName Kernel} (lives : live p.cpu = some x)
    (taken : schedTerminate p.cpu p.state = .ok ((), g)) :
    Invariant maker { p with state := g } := by
  rw [schedTerminate_ok (live_current lives) taken]
  have move := Smp.Move.terminate (m := p.view) 0 x inv.outside lives
  have after := (move.single inv.single).congr
    ⟨taskLocks p.state.held, p.state.data.setStatus x .zombie⟩ rfl (fun _ => rfl)
    (fun _ => rfl) (taskLocks_free _)
  exact ⟨after, inv.outside, inv.accounted, inv.alone, inv.ready, inv.stuck⟩

theorem Invariant.tick {captured : Processor} (quiet : passesGuard p.state captured = true → p.Quiet)
    (taken : p.act maker (.tick captured) = some next) : Invariant maker next := by
  simp only [act] at taken
  cases passes : passesGuard p.state captured with
  | true =>
    have free := inv.cycleFree passes (quiet passes)
    obtain ⟨cpu, processor, k, returns, idle, single⟩ := inv.handler_returns passes (quiet passes)
    unfold Returns at returns
    rw [returns] at taken
    cases taken
    refine ⟨single, rfl, inv.accounted, ?_, ?_, inv.stuck⟩
    · intro l x shared within
      have locked := inv.accounted.locked l x within
      cases l <;> simp_all [LockName.shared, trackedLocks, free.kalloc, free.vmm, free.gtq,
        free.agentChannel]
    · intro x
      refine (inv.ready x).mono ?_ (fun _ member => member) fun _ member => member
      rintro t ⟨made, unstarted, ordinary⟩
      refine ⟨made, unstarted, ?_⟩
      rintro ⟨_, same⟩
      exact ordinary ⟨0, same.trans idle⟩
  | false =>
    have returns := interruptHandler_blocked p.cpu passes
    unfold Returns at returns
    rw [returns] at taken
    cases taken
    have cores : (fun _ => ⟨p.cpu, .outside⟩) = p.cores := by
      funext i
      rw [Subsingleton.elim i 0, ← inv.outside]
      rfl
    simpa only [cores, Guarded.withData_self] using inv

end Steps

theorem Invariant.step (inv : p.Invariant maker) {event : PreemptEvent}
    (undisturbed : p.Undisturbed event) (taken : p.step maker event = some next) :
    Invariant maker next := by
  rw [Preempt.step, if_pos inv.stuck] at taken
  cases event with
  | tick captured => exact inv.tick undisturbed taken
  | call call =>
    simp only [act] at taken
    cases lives : live p.cpu with
    | none => simp [lives] at taken
    | some x =>
      simp only [lives] at taken
      split at taken
      · rename_i allowed
        cases taken
        exact inv.call (live_current lives) allowed.2.1 allowed.2.2
      · cases taken
  | run =>
    simp only [act] at taken
    cases lives : live p.cpu with
    | none => simp [lives] at taken
    | some x =>
      simp only [lives] at taken
      cases later : p.todo x with
      | nil => simp [later] at taken
      | cons op rest =>
        simp only [later] at taken
        obtain ⟨⟨_, g⟩, stepped, rfl⟩ := Option.map_eq_some_iff.mp taken
        exact inv.run (live_current lives) later (ok_of_toOption stepped)
  | terminate =>
    simp only [act] at taken
    cases lives : live p.cpu with
    | none => simp [lives] at taken
    | some x =>
      simp only [lives] at taken
      split at taken
      · obtain ⟨⟨_, g⟩, stepped, rfl⟩ := Option.map_eq_some_iff.mp taken
        exact inv.terminate lives (ok_of_toOption stepped)
      · cases taken

theorem boot_invariant (maker : TaskRef → TaskRef) (prior : TaskRef → Task) {idle neutrino : TaskRef}
    (distinct : neutrino ≠ idle) (cpuIdle neutrinoMain : W64) (growth : List Nat) :
    Invariant maker (boot prior idle neutrino cpuIdle neutrinoMain growth) := by
  have initial := Smp.init_single prior (fun _ => idle) cpuIdle growth
  have begun := (Smp.Move.startBegin neutrino neutrinoMain (fun ⟨_, same⟩ => distinct same)
    (by simp [Smp.init])).single initial
  have queued := (Smp.Move.startPut neutrino List.mem_cons_self).single begun
  have ended := (Smp.Move.startEnd neutrino List.mem_cons_self).single queued
  have unlocked : trackedLocks (fun _ => false) = fun _ => false := by
    funext l
    simp [trackedLocks]
  have accounted : Accounted Op.touch (fun _ => false) fun _ : TaskRef => [] := .start _
  rw [← unlocked] at accounted
  refine ⟨?_, rfl, accounted, ?_, ?_, rfl⟩
  · have single := ended.congr ⟨taskLocks fun _ => false, _⟩ rfl (fun _ => rfl)
      (fun t => by simp [taskLocks, Smp.init]) (taskLocks_free fun _ => false)
    simpa [view, boot, Smp.init, Kernel.start] using single
  · intro l x _ within
    cases within
  · exact fun _ => trivial

end Preempt

/-- The timer handler waits for no lock of an interrupted task as long as no tick that passes its
    guard interrupts a task in a section under `gtq_lock` or `agent_channel_lock`. -/
theorem handler_never_spins (maker : TaskRef → TaskRef) (prior : TaskRef → Task)
    (idle neutrino : TaskRef) (distinct : neutrino ≠ idle) (cpuIdle neutrinoMain : W64)
    (growth : List Nat) (events : List PreemptEvent) (p : Preempt)
    (run : Run (fun p event next => p.Undisturbed event ∧ p.step maker event = some next)
      (.boot prior idle neutrino cpuIdle neutrinoMain growth) events p) :
    p.stuck = none ∧ ∀ captured, passesGuard p.state captured = true → p.Quiet →
      CycleFree p.state.held ∧ ∃ cpu processor k,
        interruptHandler p.cpu captured p.state = .ok ((cpu, processor), p.state.withData k) := by
  have inv : p.Invariant maker := by
    refine run.invariant ?_ (Preempt.boot_invariant maker prior distinct cpuIdle neutrinoMain growth)
    intro s event next inv taken
    exact inv.step taken.1 taken.2
  refine ⟨inv.stuck, fun captured passes quiet => ⟨inv.cycleFree passes quiet, ?_⟩⟩
  obtain ⟨cpu, processor, k, returns, -⟩ := inv.handler_returns passes quiet
  exact ⟨cpu, processor, k, returns⟩

/-- The first tick brings up the task of `neutrino_main`, which starts another one while the
    timer interrupts it between the two. -/
def twoTasks : List PreemptEvent :=
  .tick (timerFrame 0) :: .call (.schedStart 2 0x400000 1) :: .tick (timerFrame 0) ::
    List.replicate 9 .run ++ [.tick (timerFrame 0)]

theorem handler_never_spins_two_tasks :
    ∃ p : Preempt, p.cpu.current = some 2 ∧ p.stuck = none ∧ CycleFree p.state.held := by
  have reached : (twoTasks.foldlM (fun (p : Preempt) event =>
      if p.Undisturbed event then p.step (fun _ => 1) event else none)
      (.boot (fun _ => default) 0 1 0 0 [])).map (fun p =>
        (p.cpu.current, decide (passesGuard p.state (timerFrame 0) = true ∧ p.Quiet))) =
      some (some 2, true) := by decide +kernel
  obtain ⟨p, taken, facts⟩ := Option.map_eq_some_iff.mp reached
  simp only [Prod.mk.injEq, decide_eq_true_eq] at facts
  have run : Run (fun (p : Preempt) event next =>
      p.Undisturbed event ∧ p.step (fun _ => 1) event = some next)
      (.boot (fun _ => default) 0 1 0 0 []) twoTasks p := by
    refine (Run.of_foldlM taken).mono fun s event next step => ?_
    split at step
    · rename_i undisturbed
      exact ⟨undisturbed, step⟩
    · cases step
  obtain ⟨moving, free⟩ := handler_never_spins (fun _ => 1) (fun _ => default) 0 1 (by decide) 0 0 []
    twoTasks p run
  exact ⟨p, facts.1, moving, (free (timerFrame 0) facts.2.1 facts.2.2).1⟩

/-- The timer interrupts `sched_start` in `queue_put`, in front of its heap call. -/
def queueInterrupted : List PreemptEvent :=
  [.tick (timerFrame 0), .call (.schedStart 2 0x400000 0), .run, .run, .tick (timerFrame 0)]

/-- The timer interrupts `NewChannel` in its section of `agent_channel_lock`, between two heap
    calls, and the task that it passes to ends. -/
def channelInterrupted : List PreemptEvent :=
  .tick (timerFrame 0) :: .call (.schedStart 2 0x400000 0) :: List.replicate 7 .run ++
    .call (.newChannel 0 0 0 0 0) :: List.replicate 9 .run ++
    [.tick (timerFrame 0), .terminate, .tick (timerFrame 0)]

theorem handler_spins_on_interrupted_section :
    (∃ p : Preempt, Run (fun p event next => p.step (fun _ => 1) event = some next)
      (.boot (fun _ => default) 0 1 0 0 []) queueInterrupted p ∧ p.stuck = some .gtq) ∧
    ∃ p : Preempt, Run (fun p event next => p.step (fun _ => 1) event = some next)
      (.boot (fun _ => default) 0 1 0 0 []) channelInterrupted p ∧ p.stuck = some .agentChannel := by
  have first : (queueInterrupted.foldlM (Preempt.step fun _ => 1)
      (.boot (fun _ => default) 0 1 0 0 [])).map Preempt.stuck = some (some .gtq) := by
    decide +kernel
  have second : (channelInterrupted.foldlM (Preempt.step fun _ => 1)
      (.boot (fun _ => default) 0 1 0 0 [])).map Preempt.stuck = some (some .agentChannel) := by
    decide +kernel
  obtain ⟨p, taken, stuck⟩ := Option.map_eq_some_iff.mp first
  obtain ⟨q, taken', stuck'⟩ := Option.map_eq_some_iff.mp second
  exact ⟨⟨p, .of_foldlM taken, stuck⟩, q, .of_foldlM taken', stuck'⟩

end Neutrino.Tasks
