import Neutrino.Tasks.Kernel

namespace Neutrino.Tasks

open Library

/-- `struct __tasks` of a processor, with its number. A null pointer is `none`. -/
structure Cpu where
  id : BitVec 16
  idle : TaskRef
  current : Option TaskRef
  next : Option TaskRef
  deriving DecidableEq, Repr

def cpuIsIdle (cpu : Cpu) : Bool :=
  (cpu.current == none || cpu.current == some cpu.idle) && cpu.next == none

def cpuIsNextFree (cpu : Cpu) : Bool := cpu.next == none

/-- `if (task->status == TASK_RUNNING) task->status = TASK_READY`, at both places that take a task
    off the processor. -/
def leaveProcessor (t : TaskRef) : KernelM Unit := do
  if (← getData).status t = .running then modifyData (·.setStatus t .ready)

/-- Both slots are filled where this is called. -/
def cpuSwapTask (cpu : Cpu) : KernelM Cpu :=
  match cpu.current, cpu.next with
  | some current, some next => retain (.task current) <| retain (.task next) do
    leaveProcessor current
    return { cpu with current := some next, next := some current }
  | _, _ => pure cpu

/-- The next slot is filled where this is called. -/
def cpuNext (cpu : Cpu) : KernelM Cpu :=
  match cpu.next with
  | some next => retain (.task next) <| pure { cpu with current := some next, next := none }
  | none => pure cpu

def queueIsEmpty : KernelM Bool := retain .gtq do
  return (← getData).gtq.isEmpty

/-- The body of the loop of `queue_assign`: whether the walk ends at this task. -/
def queueTry (ignoreAffinity : Bool) (cpuId : BitVec 16) (t : TaskRef) : KernelM Bool := do
  if ← isHeld (.task t) then return false
  retain (.task t) do
    let task := (← getData).tasks t
    if task.runnable then
      if !ignoreAffinity && task.cpuAffinity.cpuId != cpuId && !task.cpuAffinity.affinityIgnored then
        modifyData (·.setAffinity t { task.cpuAffinity with affinityIgnored := true })
      return true
    else return false

def queueWalk (ignoreAffinity : Bool) (cpuId : BitVec 16) :
    Nat → List TaskRef → KernelM (Option (TaskRef × Nat))
  | _, [] => pure none
  | index, t :: rest => do
    if ← queueTry ignoreAffinity cpuId t then return some (t, index)
    queueWalk ignoreAffinity cpuId (index + 1) rest

def queueAssign (ignoreAffinity : Bool) (cpuId : BitVec 16) : KernelM (Option TaskRef) :=
  retain .gtq do
    match ← queueWalk ignoreAffinity cpuId 0 (← getData).gtq with
    | none => return none
    | some (t, index) =>
      modifyData (·.setAffinity t ⟨cpuId, false⟩)
      kfree
      modifyData fun k => { k with gtq := k.gtq.eraseIdx index }
      return some t

def queuePut (t : TaskRef) : KernelM Unit := retain .gtq do
  leaveProcessor t
  kmalloc
  modifyData fun k => { k with gtq := k.gtq ++ [t] }

/-- The context a task starts from. Both stack pointers leave room for the return address that
    `task_set_stack` has put there. -/
def startContext (task : Task) (entryPoint : W64) : Context :=
  let stack := processStackBase + processStackSize - 8#64
  contextInit task.context entryPoint stack stack task.user

def schedStart (t : TaskRef) (entryPoint : W64) : KernelM Unit := retain (.task t) do
  modifyData fun k => k.setContext t (startContext (k.tasks t) entryPoint)
  modifyData (·.setStatus t .new)
  queuePut t

/-- `LockOperation(current->lock, current->status = TASK_ZOMBIE)`; the rest of
    `sched_terminate` waits for the next tick. -/
def schedTerminate (cpu : Cpu) : KernelM Unit :=
  match cpu.current with
  | some current => retain (.task current) <| modifyData (·.setStatus current .zombie)
  | none => pure ()

-- `sched_cycle` in its four parts: the zombie, the processor with nothing to run, the busy
-- processor, and the fallback to the idle task.

def reapZombie (cpu : Cpu) : KernelM Cpu :=
  match cpu.current with
  | some current => do
    if (← getData).status current = .zombie then
      destroyTask current
      return { cpu with current := none }
    else return cpu
  | none => pure cpu

def fillIdle (cpu : Cpu) : KernelM Cpu := do
  if ← queueIsEmpty then return cpu
  else return { cpu with current := ← queueAssign true cpu.id }

def useNextSlot (cpu : Cpu) : KernelM Cpu :=
  if cpuIsNextFree cpu then pure cpu
  else if cpu.current = none then cpuNext cpu
  else cpuSwapTask cpu

def putCurrent (cpu : Cpu) : KernelM Unit :=
  match cpu.current with
  | some current => queuePut current
  | none => pure ()

def fillCurrent (cpu : Cpu) : KernelM Cpu :=
  if cpuIsNextFree cpu then do return { cpu with current := ← queueAssign true cpu.id }
  else cpuNext cpu

def fillNext (cpu : Cpu) : KernelM Cpu := do
  return { cpu with next := ← queueAssign false cpu.id }

def rotateBusy (cpu : Cpu) : KernelM Cpu := do
  if ← queueIsEmpty then useNextSlot cpu
  else
    putCurrent cpu
    let cpu ← fillCurrent cpu
    fillNext cpu

def markRunning (cpu : Cpu) : KernelM Cpu := do
  let current := cpu.current.getD cpu.idle
  modifyData (·.setStatus current .running)
  return { cpu with current := some current }

def pickTasks (cpu : Cpu) : KernelM Cpu :=
  if cpuIsIdle cpu then fillIdle cpu else rotateBusy cpu

def schedCycle (cpu : Cpu) : KernelM Cpu := do
  let cpu ← reapZombie cpu
  let cpu ← pickTasks cpu
  markRunning cpu

structure QueueFree (held : LockName → Bool) : Prop extends HeapFree held where
  gtq : held .gtq = false

structure CycleFree (held : LockName → Bool) : Prop extends QueueFree held where
  agentChannel : held .agentChannel = false

theorem CycleFree.destroyFree {held : LockName → Bool} (free : CycleFree held) : DestroyFree held :=
  ⟨free.toHeapFree, free.agentChannel⟩

/-- A running task becomes ready when it leaves the processor. -/
def Kernel.park (k : Kernel) (t : TaskRef) : Kernel :=
  if k.status t = .running then k.setStatus t .ready else k

def Kernel.put (k : Kernel) (t : TaskRef) : Kernel :=
  { (k.park t).drop 1 with gtq := (k.park t).gtq ++ [t] }

def Kernel.take (k : Kernel) (t : TaskRef) (cpuId : BitVec 16) (rest : List TaskRef) : Kernel :=
  { (k.setAffinity t ⟨cpuId, false⟩).drop 1 with gtq := rest }

def Kernel.start (k : Kernel) (t : TaskRef) (entryPoint : W64) : Kernel :=
  ((k.setContext t (startContext (k.tasks t) entryPoint)).setStatus t .new).put t

/-- The tasks `queue_assign` stops at. -/
def pickable (g : Guarded LockName Kernel) (t : TaskRef) : Bool :=
  !g.held (.task t) && (g.data.tasks t).runnable

section Fields

variable (k : Kernel) (t u : TaskRef)

@[simp] theorem park_gtq : (k.park t).gtq = k.gtq := by
  unfold Kernel.park
  split <;> rfl

@[simp] theorem park_destroyed : (k.park t).destroyed = k.destroyed := by
  unfold Kernel.park
  split <;> rfl

@[simp] theorem park_ready : (k.park t).ready = k.ready := by
  unfold Kernel.park
  split <;> rfl

@[simp] theorem park_context : (k.park t).context u = k.context u := by
  unfold Kernel.park
  split
  · exact setStatus_context k t u .ready
  · rfl

@[simp] theorem park_status :
    (k.park t).status u = if u = t ∧ k.status t = .running then .ready else k.status u := by
  unfold Kernel.park
  by_cases running : k.status t = .running
  · simp [running]
  · simp [running]

theorem park_status_ne (ne : u ≠ t) : (k.park t).status u = k.status u := by
  rw [park_status, if_neg (fun both => ne both.1)]

@[simp] theorem put_gtq : (k.put t).gtq = k.gtq ++ [t] := by simp [Kernel.put]
@[simp] theorem put_destroyed : (k.put t).destroyed = k.destroyed := park_destroyed k t
@[simp] theorem put_ready : (k.put t).ready = k.ready := park_ready k t
@[simp] theorem put_context : (k.put t).context u = k.context u := park_context k t u
@[simp] theorem put_status : (k.put t).status u = (k.park t).status u := rfl

variable (cpuId : BitVec 16) (rest : List TaskRef)

@[simp] theorem take_gtq : (k.take t cpuId rest).gtq = rest := rfl
@[simp] theorem take_destroyed : (k.take t cpuId rest).destroyed = k.destroyed := rfl
@[simp] theorem take_ready : (k.take t cpuId rest).ready = k.ready := rfl

@[simp] theorem take_context : (k.take t cpuId rest).context u = k.context u :=
  setAffinity_context k t u ⟨cpuId, false⟩

@[simp] theorem take_status : (k.take t cpuId rest).status u = k.status u :=
  setAffinity_status k t u ⟨cpuId, false⟩

@[simp] theorem drop_status (calls : Nat) : (k.drop calls).status u = k.status u := rfl
@[simp] theorem drop_context (calls : Nat) : (k.drop calls).context u = k.context u := rfl

@[simp] theorem start_gtq (entryPoint : W64) : (k.start t entryPoint).gtq = k.gtq ++ [t] := by
  simp [Kernel.start]

@[simp] theorem start_destroyed (entryPoint : W64) :
    (k.start t entryPoint).destroyed = k.destroyed := by
  simp [Kernel.start]

@[simp] theorem start_ready (entryPoint : W64) : (k.start t entryPoint).ready = k.ready := by
  simp [Kernel.start]

@[simp] theorem start_status (entryPoint : W64) :
    (k.start t entryPoint).status u = if u = t then .new else k.status u := by
  simp [Kernel.start]

@[simp] theorem start_context (entryPoint : W64) :
    (k.start t entryPoint).context u =
      if u = t then startContext (k.tasks t) entryPoint else k.context u := by
  simp [Kernel.start]

theorem setAffinity_self : k.setAffinity t (k.tasks t).cpuAffinity = k := by
  simp [Kernel.setAffinity]

end Fields

section Specs

variable {g : Guarded LockName Kernel} {t : TaskRef} {ignoreAffinity : Bool} {cpuId : BitVec 16}

theorem queueIsEmpty_returns (gtq : g.held .gtq = false) :
    Returns g queueIsEmpty g.data.gtq.isEmpty g.data :=
  .retain gtq (.getData (.pure _))

theorem leaveProcessor_returns (t : TaskRef) : Returns g (leaveProcessor t) () (g.data.park t) := by
  apply Returns.getData
  unfold Kernel.park
  split
  · exact .modifyData _
  · exact .pure ()

theorem queuePut_returns (free : QueueFree g.held) (t : TaskRef) :
    Returns g (queuePut t) () (g.data.put t) := by
  apply Returns.retain free.gtq
  apply (leaveProcessor_returns t).bind
  apply (heapCall_returns ⟨by simp [free.kalloc], by simp [free.vmm]⟩).bind
  exact .modifyData _

theorem schedStart_returns (free : QueueFree g.held) (task : g.held (.task t) = false)
    (entryPoint : W64) : Returns g (schedStart t entryPoint) () (g.data.start t entryPoint) := by
  apply Returns.retain task
  apply (Returns.modifyData _).bind
  apply (Returns.modifyData _).bind
  exact queuePut_returns ⟨⟨by simp [free.kalloc], by simp [free.vmm]⟩, by simp [free.gtq]⟩ t

theorem schedTerminate_returns {cpu : Cpu} (runs : cpu.current = some t)
    (task : g.held (.task t) = false) :
    Returns g (schedTerminate cpu) () (g.data.setStatus t .zombie) := by
  simp only [schedTerminate, runs]
  exact .retain task (.modifyData _)

theorem reapZombie_spares {cpu : Cpu}
    (alive : ∀ c, cpu.current = some c → g.data.status c ≠ .zombie) :
    Returns g (reapZombie cpu) cpu g.data := by
  unfold reapZombie
  cases runs : cpu.current with
  | none => exact .pure cpu
  | some c =>
    apply Returns.getData
    rw [if_neg (alive c runs)]
    exact .pure cpu

theorem reapZombie_destroys {cpu : Cpu} (free : DestroyFree g.held) (runs : cpu.current = some t)
    (zombie : g.data.status t = .zombie) :
    ∃ calls, Returns g (reapZombie cpu) { cpu with current := none }
      { g.data.drop calls with destroyed := g.data.destroyed ++ [t] } := by
  obtain ⟨calls, destroyed⟩ := destroyTask_returns free t
  refine ⟨calls, ?_⟩
  simp only [reapZombie, runs]
  apply Returns.getData
  rw [if_pos zombie]
  exact destroyed.bind (.pure _)

theorem reapZombie_cases (cpu : Cpu) (free : DestroyFree g.held) :
    ((∀ c, cpu.current = some c → g.data.status c ≠ .zombie) ∧
        Returns g (reapZombie cpu) cpu g.data) ∨
      ∃ c calls, cpu.current = some c ∧ g.data.status c = .zombie ∧
        Returns g (reapZombie cpu) { cpu with current := none }
          { g.data.drop calls with destroyed := g.data.destroyed ++ [c] } := by
  by_cases alive : ∀ c, cpu.current = some c → g.data.status c ≠ .zombie
  · exact .inl ⟨alive, reapZombie_spares alive⟩
  · obtain ⟨c, runs, zombie⟩ : ∃ c, cpu.current = some c ∧ g.data.status c = .zombie := by
      simpa using alive
    obtain ⟨calls, returns⟩ := reapZombie_destroys free runs zombie
    exact .inr ⟨c, calls, runs, zombie, returns⟩

theorem queueTry_skips (skipped : pickable g t = false) :
    Returns g (queueTry ignoreAffinity cpuId t) false g.data := by
  apply Returns.isHeld
  cases taken : g.held (.task t) with
  | true => exact .pure false
  | false =>
    apply Returns.retain taken
    apply Returns.getData
    have idle : (g.data.tasks t).runnable = false := by simpa [pickable, taken] using skipped
    simp only [Guarded.acquire_data, idle, Bool.false_eq_true, ↓reduceIte]
    exact .pure false

theorem queueTry_stops (ignoreAffinity : Bool) (cpuId : BitVec 16) (picked : pickable g t = true) :
    ∃ affinity, Returns g (queueTry ignoreAffinity cpuId t) true (g.data.setAffinity t affinity) := by
  obtain ⟨unlocked, runnable⟩ : g.held (.task t) = false ∧ (g.data.tasks t).runnable = true := by
    simpa [pickable] using picked
  by_cases marks : (!ignoreAffinity && (g.data.tasks t).cpuAffinity.cpuId != cpuId &&
      !(g.data.tasks t).cpuAffinity.affinityIgnored) = true
  · refine ⟨{ (g.data.tasks t).cpuAffinity with affinityIgnored := true }, .isHeld ?_⟩
    rw [unlocked]
    apply Returns.retain unlocked
    apply Returns.getData
    simp only [Guarded.acquire_data, runnable, marks, ↓reduceIte]
    exact (Returns.modifyData _).bind (.pure true)
  · refine ⟨(g.data.tasks t).cpuAffinity, .isHeld ?_⟩
    rw [unlocked, setAffinity_self]
    apply Returns.retain unlocked
    apply Returns.getData
    simp only [Guarded.acquire_data, runnable, marks, ↓reduceIte]
    exact .pure true

theorem queueWalk_none (index : Nat) (list : List TaskRef)
    (skipped : ∀ t ∈ list, pickable g t = false) :
    Returns g (queueWalk ignoreAffinity cpuId index list) none g.data := by
  induction list generalizing index with
  | nil => exact .pure none
  | cons t rest ih =>
    apply (queueTry_skips (skipped t (by simp))).bind
    exact ih (index + 1) fun u member => skipped u (by simp [member])

theorem queueWalk_some (ignoreAffinity : Bool) (cpuId : BitVec 16) (index : Nat) (before after : List TaskRef)
    (skipped : ∀ u ∈ before, pickable g u = false) (picked : pickable g t = true) :
    ∃ affinity, Returns g (queueWalk ignoreAffinity cpuId index (before ++ t :: after))
      (some (t, index + before.length)) (g.data.setAffinity t affinity) := by
  induction before generalizing index with
  | nil =>
    obtain ⟨affinity, stops⟩ := queueTry_stops ignoreAffinity cpuId picked
    exact ⟨affinity, stops.bind (.pure _)⟩
  | cons u before ih =>
    obtain ⟨affinity, found⟩ := ih (index + 1) fun v member => skipped v (by simp [member])
    rw [Nat.add_right_comm] at found
    exact ⟨affinity, (queueTry_skips (skipped u (by simp))).bind found⟩

theorem queueAssign_none (gtq : g.held .gtq = false)
    (skipped : ∀ t ∈ g.data.gtq, pickable g t = false) :
    Returns g (queueAssign ignoreAffinity cpuId) none g.data := by
  apply Returns.retain gtq
  apply Returns.getData
  have walked : Returns (g.acquire .gtq) (queueWalk ignoreAffinity cpuId 0 g.data.gtq) none g.data :=
    queueWalk_none 0 g.data.gtq (by simpa [pickable] using skipped)
  exact walked.bind (.pure none)

theorem queueAssign_some (free : QueueFree g.held) (before after : List TaskRef)
    (queue : g.data.gtq = before ++ t :: after)
    (skipped : ∀ u ∈ before, pickable g u = false) (picked : pickable g t = true) :
    Returns g (queueAssign ignoreAffinity cpuId) (some t) (g.data.take t cpuId (before ++ after)) := by
  apply Returns.retain free.gtq
  apply Returns.getData
  obtain ⟨affinity, walked⟩ := queueWalk_some (g := g.acquire .gtq) ignoreAffinity cpuId 0 before after
    (by simpa [pickable] using skipped) (by simpa [pickable] using picked)
  rw [Guarded.acquire_data, queue]
  apply walked.bind
  apply (Returns.modifyData _).bind
  apply (heapCall_returns ⟨by simp [free.kalloc], by simp [free.vmm]⟩).bind
  apply (Returns.modifyData _).bind
  have removed : (before ++ t :: after).eraseIdx (0 + before.length) = before ++ after := by
    rw [Nat.zero_add, List.eraseIdx_append_of_length_le (Nat.le_refl _), Nat.sub_self]
    rfl
  simp only [Guarded.withData_data, Guarded.acquire_data, setAffinity_setAffinity, drop_gtq,
    setAffinity_gtq, queue, removed]
  exact .pure _

theorem queueAssign_cases (free : QueueFree g.held) (ignoreAffinity : Bool) (cpuId : BitVec 16) :
    ((∀ t ∈ g.data.gtq, pickable g t = false) ∧
        Returns g (queueAssign ignoreAffinity cpuId) none g.data) ∨
      ∃ before t after, g.data.gtq = before ++ t :: after ∧ pickable g t = true ∧
        (∀ u ∈ before, pickable g u = false) ∧
        Returns g (queueAssign ignoreAffinity cpuId) (some t)
          (g.data.take t cpuId (before ++ after)) := by
  by_cases found : ∀ t ∈ g.data.gtq, pickable g t = false
  · exact .inl ⟨found, queueAssign_none free.gtq found⟩
  · right
    have some : (g.data.gtq.find? (pickable g)).isSome := by
      simpa [List.find?_isSome] using found
    obtain ⟨t, first⟩ := Option.isSome_iff_exists.mp some
    obtain ⟨picked, before, after, queue, skipped⟩ := List.find?_eq_some_iff_append.mp first
    have passed : ∀ u ∈ before, pickable g u = false := by simpa using skipped
    exact ⟨before, t, after, queue, picked, passed, queueAssign_some free before after queue passed picked⟩

end Specs

section Outcomes

variable {g g' : Guarded LockName Kernel}

theorem vmmSections_ok (count : Nat) (taken : vmmSections count g = .ok ((), g')) :
    g' = g.withData g.data := by
  induction count with
  | zero =>
    cases taken
    rfl
  | succ count ih =>
    obtain ⟨_, middle, first, rest⟩ := bind_ok taken
    have same : middle = g.withData g.data := by
      apply returns_of_retain first
      intro h inside
      cases inside
      rfl
    rw [same] at rest
    exact ih rest

theorem heapCall_ok (taken : heapCall g = .ok ((), g')) : g' = g.withData (g.data.drop 1) := by
  apply returns_of_retain taken
  intro h inside
  obtain ⟨k, middle, read, rest⟩ := bind_ok inside
  cases read
  obtain ⟨_, dropped, written, sections⟩ := bind_ok rest
  cases written
  exact vmmSections_ok _ sections

theorem queuePut_ok {t : TaskRef} (taken : queuePut t g = .ok ((), g')) :
    g' = g.withData (g.data.put t) := by
  apply returns_of_retain taken
  intro h inside
  obtain ⟨_, parked, first, rest⟩ := bind_ok inside
  cases (leaveProcessor_returns t).unique first
  obtain ⟨_, middle, second, last⟩ := bind_ok rest
  rw [heapCall_ok second] at last
  cases last
  rfl

theorem schedStart_ok {t : TaskRef} {entryPoint : W64}
    (taken : schedStart t entryPoint g = .ok ((), g')) :
    g' = g.withData (g.data.start t entryPoint) := by
  apply returns_of_retain taken
  intro h inside
  obtain ⟨_, _, first, rest⟩ := bind_ok inside
  cases first
  obtain ⟨_, _, second, last⟩ := bind_ok rest
  cases second
  exact queuePut_ok last

theorem schedTerminate_ok {cpu : Cpu} {c : TaskRef} (runs : cpu.current = some c)
    (taken : schedTerminate cpu g = .ok ((), g')) :
    g' = g.withData (g.data.setStatus c .zombie) := by
  simp only [schedTerminate, runs] at taken
  apply returns_of_retain taken
  intro h inside
  cases inside
  rfl

end Outcomes

end Neutrino.Tasks
