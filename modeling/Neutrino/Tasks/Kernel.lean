import Neutrino.Library.SpinLocks
import Neutrino.Tasks.Context

namespace Neutrino.Tasks

open Library

inductive TaskStatus
  | embryo | new | ready | running | zombie
  deriving DecidableEq, Repr, Inhabited

structure CpuAffinity where
  cpuId : BitVec 16
  affinityIgnored : Bool
  deriving DecidableEq, Repr, Inhabited

abbrev TaskRef := Nat

/-- The fields of `Task` that scheduling reads or writes. `memoryRanges` holds the sizes in
    pages of the ranges of the task's space, which `DestroySpace` walks. -/
structure Task where
  status : TaskStatus
  cpuAffinity : CpuAffinity
  user : Bool
  context : Context
  memoryRanges : List Nat
  deriving DecidableEq, Repr, Inhabited

def Task.runnable (task : Task) : Bool := task.status == .ready || task.status == .new

def Task.neverRun (task : Task) : Bool := task.status == .embryo || task.status == .new

inductive LockName
  | kalloc | vmm | gtq | agentChannel | agent | loader | log | handles | isSwitching
  | task (t : TaskRef)
  | space (t : TaskRef)
  | ring (t : TaskRef)
  deriving DecidableEq, Repr

/-- The scheduler's globals and the tasks. Each call of the heap allocator takes one number off
    `growth`: how often that call goes on to enter a section under `vmm_lock`. -/
structure Kernel where
  ready : Bool
  tasks : TaskRef → Task
  gtq : List TaskRef
  growth : List Nat
  destroyed : List TaskRef

abbrev KernelM := Spin LockName Kernel

def Kernel.setStatus (k : Kernel) (t : TaskRef) (status : TaskStatus) : Kernel :=
  { k with tasks := Function.update k.tasks t { k.tasks t with status := status } }

def Kernel.setAffinity (k : Kernel) (t : TaskRef) (affinity : CpuAffinity) : Kernel :=
  { k with tasks := Function.update k.tasks t { k.tasks t with cpuAffinity := affinity } }

def Kernel.setContext (k : Kernel) (t : TaskRef) (context : Context) : Kernel :=
  { k with tasks := Function.update k.tasks t { k.tasks t with context := context } }

def Kernel.drop (k : Kernel) (calls : Nat) : Kernel := { k with growth := k.growth.drop calls }

def Kernel.status (k : Kernel) (t : TaskRef) : TaskStatus := (k.tasks t).status

def Kernel.context (k : Kernel) (t : TaskRef) : Context := (k.tasks t).context

section Fields

variable (k : Kernel) (t u : TaskRef) (status : TaskStatus) (affinity : CpuAffinity)
  (context : Context)

@[simp] theorem setStatus_gtq : (k.setStatus t status).gtq = k.gtq := rfl
@[simp] theorem setStatus_destroyed : (k.setStatus t status).destroyed = k.destroyed := rfl
@[simp] theorem setStatus_ready : (k.setStatus t status).ready = k.ready := rfl
@[simp] theorem setAffinity_gtq : (k.setAffinity t affinity).gtq = k.gtq := rfl
@[simp] theorem setAffinity_destroyed : (k.setAffinity t affinity).destroyed = k.destroyed := rfl
@[simp] theorem setAffinity_ready : (k.setAffinity t affinity).ready = k.ready := rfl
@[simp] theorem setContext_gtq : (k.setContext t context).gtq = k.gtq := rfl
@[simp] theorem setContext_destroyed : (k.setContext t context).destroyed = k.destroyed := rfl
@[simp] theorem setContext_ready : (k.setContext t context).ready = k.ready := rfl

@[simp] theorem setStatus_status :
    (k.setStatus t status).status u = if u = t then status else k.status u := by
  by_cases same : u = t
  · simp [Kernel.setStatus, Kernel.status, same]
  · simp [Kernel.setStatus, Kernel.status, same]

@[simp] theorem setAffinity_status : (k.setAffinity t affinity).status u = k.status u := by
  by_cases same : u = t
  · simp [Kernel.setAffinity, Kernel.status, same]
  · simp [Kernel.setAffinity, Kernel.status, same]

@[simp] theorem setContext_status : (k.setContext t context).status u = k.status u := by
  by_cases same : u = t
  · simp [Kernel.setContext, Kernel.status, same]
  · simp [Kernel.setContext, Kernel.status, same]

@[simp] theorem setStatus_context : (k.setStatus t status).context u = k.context u := by
  by_cases same : u = t
  · simp [Kernel.setStatus, Kernel.context, same]
  · simp [Kernel.setStatus, Kernel.context, same]

@[simp] theorem setAffinity_context : (k.setAffinity t affinity).context u = k.context u := by
  by_cases same : u = t
  · simp [Kernel.setAffinity, Kernel.context, same]
  · simp [Kernel.setAffinity, Kernel.context, same]

@[simp] theorem setContext_context :
    (k.setContext t context).context u = if u = t then context else k.context u := by
  by_cases same : u = t
  · simp [Kernel.setContext, Kernel.context, same]
  · simp [Kernel.setContext, Kernel.context, same]

theorem setAffinity_setAffinity (other : CpuAffinity) :
    (k.setAffinity t affinity).setAffinity t other = k.setAffinity t other := by
  simp [Kernel.setAffinity]

theorem runnable_iff : (k.tasks t).runnable = true ↔ k.status t = .ready ∨ k.status t = .new := by
  simp [Task.runnable, Kernel.status]

theorem drop_drop (first second : Nat) : (k.drop first).drop second = k.drop (first + second) := by
  simp [Kernel.drop, List.drop_drop]

@[simp] theorem drop_gtq (calls : Nat) : (k.drop calls).gtq = k.gtq := rfl
@[simp] theorem drop_destroyed (calls : Nat) : (k.drop calls).destroyed = k.destroyed := rfl
@[simp] theorem drop_ready (calls : Nat) : (k.drop calls).ready = k.ready := rfl

end Fields

/-- A section of the virtual memory code under `vmm_lock`, seen through its lock alone. -/
def vmmSection : KernelM Unit := retain .vmm (pure ())

def vmmSections : Nat → KernelM Unit
  | 0 => pure ()
  | count + 1 => do vmmSection; vmmSections count

/-- A call of the heap allocator: `kalloc_lock` around whatever pages it maps or unmaps. -/
def heapCall : KernelM Unit := retain .kalloc do
  let count := (← getData).growth.headD 0
  modifyData fun k => k.drop 1
  vmmSections count

def kmalloc : KernelM Unit := heapCall

def kfree : KernelM Unit := heapCall

-- What a task's end means for the locks and the heap. What it does to the list of channels is in
-- `Registry.destroyChannel`, what it does to the handles in `Fs.destroyTask`.

def channelAgentRemove : KernelM Unit := retain .agentChannel kfree

def destroyChannel : KernelM Unit := do
  kfree
  channelAgentRemove
  kfree
  kfree

def destroyContext : KernelM Unit := kfree

def freeMemoryRanges : List Nat → KernelM Unit
  | [] => pure ()
  | size :: ranges => do
    vmmSections size
    kfree
    freeMemoryRanges ranges

/-- The last section is the `vmm_free_memory` of `DestroyPageTable`, over one page. -/
def destroySpace (ranges : List Nat) : KernelM Unit := do
  freeMemoryRanges ranges
  vmmSection
  kfree

def destroyTask (t : TaskRef) : KernelM Unit := do
  destroyChannel
  destroyContext
  destroySpace ((← getData).tasks t).memoryRanges
  kfree
  modifyData fun k => { k with destroyed := k.destroyed ++ [t] }

structure HeapFree (held : LockName → Bool) : Prop where
  kalloc : held .kalloc = false
  vmm : held .vmm = false

structure DestroyFree (held : LockName → Bool) : Prop extends HeapFree held where
  agentChannel : held .agentChannel = false

/-- With these locks held the code comes back and has done nothing but heap calls. -/
def OnlyHeap (held : LockName → Bool) (code : KernelM Unit) : Prop :=
  ∀ k, ∃ calls, Returns ⟨held, k⟩ code () (k.drop calls)

section Heap

variable {g : Guarded LockName Kernel} {held : LockName → Bool}

theorem OnlyHeap.bind {first second : KernelM Unit} (head : OnlyHeap held first)
    (tail : OnlyHeap held second) : OnlyHeap held (first >>= fun _ => second) := by
  intro k
  obtain ⟨used, returned⟩ := head k
  obtain ⟨more, rest⟩ := tail (k.drop used)
  rw [drop_drop] at rest
  exact ⟨used + more, returned.bind rest⟩

theorem vmmSection_returns (vmm : g.held .vmm = false) : Returns g vmmSection () g.data :=
  .retain vmm (.pure ())

theorem vmmSections_returns (vmm : g.held .vmm = false) (count : Nat) :
    Returns g (vmmSections count) () g.data := by
  induction count with
  | zero => exact .pure ()
  | succ count ih => exact .bind (vmmSection_returns vmm) ih

theorem vmmSections_onlyHeap (vmm : held .vmm = false) (count : Nat) :
    OnlyHeap held (vmmSections count) :=
  fun _ => ⟨0, vmmSections_returns vmm count⟩

theorem heapCall_returns (free : HeapFree g.held) : Returns g heapCall () (g.data.drop 1) := by
  apply Returns.retain free.kalloc
  apply Returns.getData
  apply Returns.bind (Returns.modifyData _)
  exact vmmSections_returns (by simp [free.vmm]) _

theorem heapCall_onlyHeap (free : HeapFree held) : OnlyHeap held heapCall :=
  fun _ => ⟨1, heapCall_returns free⟩

theorem channelAgentRemove_onlyHeap (free : DestroyFree held) : OnlyHeap held channelAgentRemove := by
  intro k
  refine ⟨1, .retain free.agentChannel ?_⟩
  exact heapCall_returns ⟨by simp [free.kalloc], by simp [free.vmm]⟩

theorem destroyChannel_onlyHeap (free : DestroyFree held) : OnlyHeap held destroyChannel := by
  have call := heapCall_onlyHeap free.toHeapFree
  exact call.bind ((channelAgentRemove_onlyHeap free).bind (call.bind call))

theorem freeMemoryRanges_onlyHeap (free : HeapFree held) (ranges : List Nat) :
    OnlyHeap held (freeMemoryRanges ranges) := by
  induction ranges with
  | nil => exact fun _ => ⟨0, .pure ()⟩
  | cons size ranges ih =>
    exact (vmmSections_onlyHeap free.vmm size).bind ((heapCall_onlyHeap free).bind ih)

theorem destroySpace_onlyHeap (free : HeapFree held) (ranges : List Nat) :
    OnlyHeap held (destroySpace ranges) := by
  have table : OnlyHeap held vmmSection := fun _ => ⟨0, vmmSection_returns free.vmm⟩
  exact (freeMemoryRanges_onlyHeap free ranges).bind (table.bind (heapCall_onlyHeap free))

theorem destroyTask_returns (free : DestroyFree g.held) (t : TaskRef) :
    ∃ calls, Returns g (destroyTask t) ()
      { g.data.drop calls with destroyed := g.data.destroyed ++ [t] } := by
  have call := heapCall_onlyHeap free.toHeapFree
  obtain ⟨used, resources⟩ := (destroyChannel_onlyHeap free).bind call g.data
  obtain ⟨more, memory⟩ :=
    (destroySpace_onlyHeap free.toHeapFree (g.data.tasks t).memoryRanges).bind call
      (g.data.drop used)
  rw [drop_drop] at memory
  refine ⟨used + more, ?_⟩
  have logged := Returns.modifyData (g := g.withData (g.data.drop (used + more)))
    fun k : Kernel => { k with destroyed := k.destroyed ++ [t] }
  have all : Returns g ((do destroyChannel; kfree) >>= fun _ => getData >>= fun k =>
      (do destroySpace (k.tasks t).memoryRanges; kfree) >>= fun _ =>
        modifyData fun k => { k with destroyed := k.destroyed ++ [t] }) ()
      { g.data.drop (used + more) with destroyed := g.data.destroyed ++ [t] } :=
    resources.bind (.getData (memory.bind logged))
  simp only [bind_assoc] at all
  exact all

end Heap

end Neutrino.Tasks
