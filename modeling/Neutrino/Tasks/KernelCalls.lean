import Neutrino.Library.LockScripts
import Neutrino.Tasks.Smp

namespace Neutrino.Tasks

open Library

/-- The steps of kernel code between which the timer may interrupt it. The context and the status
    that `sched_start` sets are set with the lock of the task, since nobody else knows the task
    yet; `append` is the part of `queue_put` behind its heap call. -/
inductive Op
  | acquire (l : LockName)
  | release (l : LockName)
  | lockNew (t : TaskRef) (entryPoint : W64)
  | append (t : TaskRef)
  | unlockNew (t : TaskRef)
  deriving DecidableEq, Repr

def vmmOps : Nat → List Op
  | 0 => []
  | sections + 1 => .acquire .vmm :: .release .vmm :: vmmOps sections

/-- `kmalloc` or `kfree`, with the sections under `vmm_lock` it enters when the heap grows or
    shrinks. -/
def heapOps (sections : Nat) : List Op :=
  .acquire .kalloc :: (vmmOps sections ++ [.release .kalloc])

def queuePutOps (t : TaskRef) (sections : Nat) : List Op :=
  .acquire .gtq :: ((heapOps sections ++ [.append t]) ++ [.release .gtq])

def schedStartOps (t : TaskRef) (entryPoint : W64) (sections : Nat) : List Op :=
  .lockNew t entryPoint :: (queuePutOps t sections ++ [.unlockNew t])

def newChannelOps (header buffer ring data node : Nat) : List Op :=
  heapOps header ++ heapOps buffer ++ heapOps ring ++ [.acquire .agent, .release .agent] ++
    .acquire .agentChannel :: ((heapOps data ++ heapOps node) ++ [.release .agentChannel])

def destroyChannelOps (ring node buffer header : Nat) : List Op :=
  heapOps ring ++ .acquire .agentChannel :: (heapOps node ++ [.release .agentChannel]) ++
    heapOps buffer ++ heapOps header

/-- `channel_transmit`, `channel_receive` and `channel_peek`. -/
def channelOps (t : TaskRef) : List Op := [.acquire (.ring t), .release (.ring t)]

def spaceMapOps (t : TaskRef) (pages sections : Nat) : List Op :=
  .acquire (.space t) :: ((vmmOps pages ++ heapOps sections) ++ [.release (.space t)])

/-- The locks that stay held over whole calls: `loader_lock` in `load_binary`, `handles_lock`,
    and the lock of the log. -/
inductive ScopeLock
  | loader | log | handles
  deriving DecidableEq, Repr

def ScopeLock.name : ScopeLock → LockName
  | .loader => .loader
  | .log => .log
  | .handles => .handles

/-- The calls a thread makes in the kernel. System calls, `NewTask` and `load_binary` are
    sequences of these. -/
inductive KernelCall
  | heap (sections : Nat)
  | vmm (sections : Nat)
  | newChannel (header buffer ring data node : Nat)
  | destroyChannel (ring node buffer header : Nat)
  | channel (t : TaskRef)
  | spaceMap (t : TaskRef) (pages sections : Nat)
  | schedStart (t : TaskRef) (entryPoint : W64) (sections : Nat)
  | enter (l : ScopeLock)
  | leave (l : ScopeLock)
  deriving DecidableEq, Repr

def KernelCall.ops : KernelCall → List Op
  | .heap sections => heapOps sections
  | .vmm sections => vmmOps sections
  | .newChannel header buffer ring data node => newChannelOps header buffer ring data node
  | .destroyChannel ring node buffer header => destroyChannelOps ring node buffer header
  | .channel t => channelOps t
  | .spaceMap t pages sections => spaceMapOps t pages sections
  | .schedStart t entryPoint sections => schedStartOps t entryPoint sections
  | .enter l => [.acquire l.name]
  | .leave l => [.release l.name]

/-- The locks that the timer handler takes, apart from those of the tasks. -/
def LockName.tracked : LockName → Bool
  | .kalloc | .vmm | .gtq | .agentChannel | .space _ => true
  | _ => false

def Op.touch : Op → Touch LockName
  | .acquire l => if l.tracked then .take l else .none
  | .release l => if l.tracked then .free l else .none
  | _ => .none

section Scripts

variable {l : LockName}

theorem vmmOps_balanced (sections : Nat) : Balanced Op.touch (vmmOps sections) := by
  induction sections with
  | zero => exact .nil
  | succ sections ih =>
    have alone : Balanced Op.touch (.acquire .vmm :: ([] ++ [.release .vmm])) :=
      .wrap (l := .vmm) rfl rfl .nil rfl
    exact alone.append ih

theorem vmmOps_mentions (sections : Nat) (other : l ≠ .vmm) :
    mentions Op.touch l (vmmOps sections) = false := by
  induction sections with
  | zero => rfl
  | succ sections ih => simp [vmmOps, mentions, Op.touch, LockName.tracked, other.symm, ih]

theorem heapOps_balanced (sections : Nat) : Balanced Op.touch (heapOps sections) :=
  .wrap (l := .kalloc) rfl rfl (vmmOps_balanced sections) (vmmOps_mentions sections (by simp))

theorem heapOps_mentions (sections : Nat) (kalloc : l ≠ .kalloc) (vmm : l ≠ .vmm) :
    mentions Op.touch l (heapOps sections) = false := by
  simp [heapOps, mentions, mentions_append, Op.touch, LockName.tracked, kalloc.symm,
    vmmOps_mentions sections vmm]

theorem queuePutOps_balanced (t : TaskRef) (sections : Nat) :
    Balanced Op.touch (queuePutOps t sections) := by
  refine .wrap (l := .gtq) rfl rfl ((heapOps_balanced sections).append (.cons_none rfl .nil)) ?_
  rw [mentions_append, heapOps_mentions sections (by simp) (by simp)]
  rfl

theorem schedStartOps_balanced (t : TaskRef) (entryPoint : W64) (sections : Nat) :
    Balanced Op.touch (schedStartOps t entryPoint sections) :=
  .cons_none rfl ((queuePutOps_balanced t sections).append (.cons_none rfl .nil))

theorem newChannelOps_balanced (header buffer ring data node : Nat) :
    Balanced Op.touch (newChannelOps header buffer ring data node) := by
  have agent : Balanced Op.touch [.acquire .agent, .release .agent] :=
    .cons_none rfl (.cons_none rfl .nil)
  have map : Balanced Op.touch
      (.acquire .agentChannel :: ((heapOps data ++ heapOps node) ++ [.release .agentChannel])) := by
    refine .wrap (l := .agentChannel) rfl rfl
      ((heapOps_balanced data).append (heapOps_balanced node)) ?_
    rw [mentions_append, heapOps_mentions data (by simp) (by simp),
      heapOps_mentions node (by simp) (by simp)]
    rfl
  exact (((heapOps_balanced header).append (heapOps_balanced buffer)).append
    (heapOps_balanced ring)).append agent |>.append map

theorem destroyChannelOps_balanced (ring node buffer header : Nat) :
    Balanced Op.touch (destroyChannelOps ring node buffer header) := by
  have map : Balanced Op.touch
      (.acquire .agentChannel :: (heapOps node ++ [.release .agentChannel])) :=
    .wrap (l := .agentChannel) rfl rfl (heapOps_balanced node)
      (heapOps_mentions node (by simp) (by simp))
  exact ((heapOps_balanced ring).append map).append (heapOps_balanced buffer) |>.append
    (heapOps_balanced header)

theorem spaceMapOps_balanced (t : TaskRef) (pages sections : Nat) :
    Balanced Op.touch (spaceMapOps t pages sections) := by
  refine .wrap (l := .space t) rfl rfl
    ((vmmOps_balanced pages).append (heapOps_balanced sections)) ?_
  rw [mentions_append, vmmOps_mentions pages (by simp), heapOps_mentions sections (by simp) (by simp)]
  rfl

theorem KernelCall.ops_balanced (call : KernelCall) : Balanced Op.touch call.ops := by
  cases call with
  | heap sections => exact heapOps_balanced sections
  | vmm sections => exact vmmOps_balanced sections
  | newChannel header buffer ring data node =>
    exact newChannelOps_balanced header buffer ring data node
  | destroyChannel ring node buffer header =>
    exact destroyChannelOps_balanced ring node buffer header
  | channel t => exact .cons_none rfl (.cons_none rfl .nil)
  | spaceMap t pages sections => exact spaceMapOps_balanced t pages sections
  | schedStart t entryPoint sections => exact schedStartOps_balanced t entryPoint sections
  | enter l => cases l <;> exact .cons_none rfl .nil
  | leave l => cases l <;> exact .cons_none rfl .nil

end Scripts

def Op.exec : Op → KernelM Unit
  | .acquire l => lock l
  | .release l => unlock l
  | .lockNew t entryPoint => startBegin t entryPoint
  | .append t => modifyData (·.put t)
  | .unlockNew t => unlock (.task t)

def runOps : List Op → KernelM Unit
  | [] => pure ()
  | op :: rest => do op.exec; runOps rest

section Execution

variable {g : Guarded LockName Kernel}

theorem runOps_append (a b : List Op) : runOps (a ++ b) = (do runOps a; runOps b) := by
  induction a with
  | nil => simp [runOps]
  | cons op a ih => simp [runOps, ih]

theorem runOps_section (l : LockName) (body : List Op) :
    runOps (.acquire l :: (body ++ [.release l])) = retain l (runOps body) := by
  simp only [runOps, runOps_append, Op.exec, retain, bind_pure_unit]

theorem runOps_vmmOps (sections : Nat) : runOps (vmmOps sections) = vmmSections sections := by
  induction sections with
  | zero => rfl
  | succ sections ih =>
    have alone : runOps [.acquire .vmm, .release .vmm] = vmmSection := runOps_section .vmm []
    rw [vmmSections, ← ih, ← alone]
    simp [vmmOps, runOps]

theorem heapOps_returns (free : HeapFree g.held) (sections : Nat) :
    Returns g (runOps (heapOps sections)) () g.data := by
  rw [heapOps, runOps_section, runOps_vmmOps]
  exact .retain free.kalloc (vmmSections_returns (by simp [free.vmm]) sections)

theorem queuePutOps_returns (free : QueueFree g.held) (t : TaskRef) (sections : Nat) :
    Returns g (runOps (queuePutOps t sections)) () (g.data.put t) := by
  rw [queuePutOps, runOps_section, runOps_append]
  apply Returns.retain free.gtq
  apply (heapOps_returns ⟨by simp [free.kalloc], by simp [free.vmm]⟩ sections).bind
  have queued : ∀ g' : Guarded LockName Kernel, Returns g' (Op.append t).exec () (g'.data.put t) :=
    fun _ => rfl
  exact (queued _).bind (.pure ())

theorem runOps_schedStartOps (free : QueueFree g.held) {t : TaskRef}
    (task : g.held (.task t) = false) (entryPoint : W64) (sections : Nat) :
    runOps (schedStartOps t entryPoint sections) g = schedStart t entryPoint g := by
  have script : Returns g (retain (.task t) do
      modifyData fun k => k.setContext t (startContext (k.tasks t) entryPoint)
      modifyData (·.setStatus t .new)
      runOps (queuePutOps t sections)) () (g.data.start t entryPoint) := by
    apply Returns.retain task
    apply (Returns.modifyData _).bind
    apply (Returns.modifyData _).bind
    exact queuePutOps_returns ⟨⟨by simp [free.kalloc], by simp [free.vmm]⟩, by simp [free.gtq]⟩ t
      sections
  rw [schedStart_returns free task entryPoint, ← script]
  simp only [schedStartOps, runOps, runOps_append, Op.exec, startBegin, retain, bind_assoc,
    bind_pure_unit]

end Execution

/-- Whether a step may use the lock, where `fresh` are the tasks that nobody else knows yet. -/
def LockName.Admitted (fresh : TaskRef → Prop) : LockName → Prop
  | .task _ => False
  | .space t => fresh t
  | _ => True

/-- What a script expects of the tasks it starts: `fresh` ones are locked first, then they are
    `starting` until they are queued, and `releasing` until they are unlocked. -/
def Ready (fresh starting releasing : TaskRef → Prop) : List Op → Prop
  | [] => True
  | .acquire l :: rest | .release l :: rest =>
    l.Admitted fresh ∧ Ready fresh starting releasing rest
  | .lockNew t _ :: rest =>
    fresh t ∧ Ready (fun u => fresh u ∧ u ≠ t) (fun u => starting u ∨ u = t) releasing rest
  | .append t :: rest =>
    starting t ∧ Ready fresh (fun u => starting u ∧ u ≠ t) (fun u => releasing u ∨ u = t) rest
  | .unlockNew t :: rest =>
    releasing t ∧ Ready fresh starting (fun u => releasing u ∧ u ≠ t) rest

section Readiness

variable {fresh starting releasing : TaskRef → Prop} {ops rest : List Op}

theorem LockName.Admitted.mono {fresh' : TaskRef → Prop} {l : LockName}
    (admitted : l.Admitted fresh) (more : ∀ t, fresh t → fresh' t) : l.Admitted fresh' := by
  cases l with
  | space t => exact more t admitted
  | task t => exact admitted
  | _ => trivial

theorem Ready.mono {fresh' starting' releasing' : TaskRef → Prop}
    (ready : Ready fresh starting releasing ops) (more : ∀ t, fresh t → fresh' t)
    (started : ∀ t, starting t → starting' t) (released : ∀ t, releasing t → releasing' t) :
    Ready fresh' starting' releasing' ops := by
  induction ops generalizing fresh starting releasing fresh' starting' releasing' with
  | nil => trivial
  | cons op rest ih =>
    cases op with
    | acquire l | release l => exact ⟨ready.1.mono more, ih ready.2 more started released⟩
    | lockNew t entryPoint =>
      exact ⟨more t ready.1, ih ready.2 (fun u => .imp_left (more u)) (fun u => .imp_left (started u))
        released⟩
    | append t =>
      exact ⟨started t ready.1, ih ready.2 more (fun u => .imp_left (started u))
        fun u => .imp_left (released u)⟩
    | unlockNew t =>
      exact ⟨released t ready.1, ih ready.2 more started fun u => .imp_left (released u)⟩

theorem Ready.fresh_of_inside {t : TaskRef} (ready : Ready fresh starting releasing ops)
    (within : inside Op.touch (.space t) ops = true) : fresh t := by
  induction ops generalizing fresh starting releasing with
  | nil => cases within
  | cons op rest ih =>
    cases op with
    | acquire l =>
      refine ih ready.2 ?_
      simp only [inside, Op.touch] at within
      cases tracked : l.tracked with
      | true => simp_all
      | false => simpa [tracked] using within
    | release l =>
      by_cases same : l = .space t
      · subst same
        exact ready.1
      · refine ih ready.2 ?_
        simp only [inside, Op.touch] at within
        cases tracked : l.tracked with
        | true => simpa [tracked, same] using within
        | false => simpa [tracked] using within
    | lockNew u entryPoint => exact (ih ready.2 within).1
    | append u | unlockNew u => exact ih ready.2 within

theorem Ready.vmmOps (sections : Nat) (later : Ready fresh starting releasing rest) :
    Ready fresh starting releasing (vmmOps sections ++ rest) := by
  induction sections with
  | zero => exact later
  | succ sections ih => exact ⟨trivial, trivial, ih⟩

theorem Ready.heapOps (sections : Nat) (later : Ready fresh starting releasing rest) :
    Ready fresh starting releasing (heapOps sections ++ rest) := by
  rw [Tasks.heapOps, List.cons_append, List.append_assoc]
  exact ⟨trivial, Ready.vmmOps sections ⟨trivial, later⟩⟩

/-- A call may be made when the tasks it names are fresh. -/
def KernelCall.Allowed (fresh : TaskRef → Prop) : KernelCall → Prop
  | .spaceMap t _ _ | .schedStart t _ _ => fresh t
  | _ => True

theorem KernelCall.ready {call : KernelCall} (allowed : call.Allowed fresh) :
    Ready fresh starting releasing call.ops := by
  have final : ∀ sections, Ready fresh starting releasing (Tasks.heapOps sections) := by
    intro sections
    have only : Ready fresh starting releasing (Tasks.heapOps sections ++ []) :=
      .heapOps sections trivial
    rwa [List.append_nil] at only
  cases call with
  | heap sections => exact final sections
  | vmm sections =>
    have only : Ready fresh starting releasing (Tasks.vmmOps sections ++ []) :=
      .vmmOps sections trivial
    rwa [List.append_nil] at only
  | newChannel header buffer ring data node =>
    simp only [ops, newChannelOps, List.append_assoc, List.cons_append, List.nil_append]
    refine .heapOps _ (.heapOps _ (.heapOps _ ⟨trivial, trivial, trivial, ?_⟩))
    exact .heapOps _ (.heapOps _ ⟨trivial, trivial⟩)
  | destroyChannel ring node buffer header =>
    simp only [ops, destroyChannelOps, List.append_assoc, List.cons_append, List.nil_append]
    exact .heapOps _ ⟨trivial, .heapOps _ ⟨trivial, .heapOps _ (final header)⟩⟩
  | channel t => exact ⟨trivial, trivial, trivial⟩
  | spaceMap t pages sections =>
    simp only [ops, spaceMapOps, List.append_assoc]
    exact ⟨allowed, .vmmOps _ (.heapOps _ ⟨allowed, trivial⟩)⟩
  | schedStart t entryPoint sections =>
    simp only [ops, schedStartOps, queuePutOps, List.append_assoc, List.cons_append, List.nil_append]
    refine ⟨allowed, trivial, .heapOps _ ?_⟩
    exact ⟨.inr rfl, trivial, .inr rfl, trivial⟩
  | enter l | leave l => cases l <;> exact ⟨trivial, trivial⟩

end Readiness

end Neutrino.Tasks
