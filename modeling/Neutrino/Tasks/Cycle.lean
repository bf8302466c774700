import Mathlib.Data.List.Basic
import Neutrino.Tasks.Scheduler

namespace Neutrino.Tasks

open Library

/-- The locks of a cycle are free. -/
structure Unlocked (held : LockName → Bool) : Prop extends CycleFree held where
  tasks : ∀ t, held (.task t) = false

def live (cpu : Cpu) : Option TaskRef := cpu.current.filter (· ≠ cpu.idle)

/-- The tasks that wait for the processor, in the order in which they will get it. -/
def waiting (cpu : Cpu) (k : Kernel) : List TaskRef := cpu.next.toList ++ k.gtq

def order (cpu : Cpu) (k : Kernel) : List TaskRef := (live cpu).toList ++ waiting cpu k

section Pick

variable {g : Guarded LockName Kernel} {cpu : Cpu} {t c n : TaskRef} {rest : List TaskRef}

theorem queueAssign_head (unlocked : Unlocked g.held) (queue : g.data.gtq = t :: rest)
    (status : g.data.status t = .ready ∨ g.data.status t = .new) (ignoreAffinity : Bool)
    (cpuId : BitVec 16) :
    Returns g (queueAssign ignoreAffinity cpuId) (some t) (g.data.take t cpuId rest) := by
  have picked : pickable g t = true := by
    have free := unlocked.tasks t
    simp only [pickable, free, Bool.not_false, Bool.true_and, runnable_iff, status]
  exact queueAssign_some unlocked.toQueueFree [] rest queue (by simp) picked

theorem queueIsEmpty_nil (unlocked : Unlocked g.held) (queue : g.data.gtq = []) :
    Returns g queueIsEmpty true g.data := by
  simpa [queue] using queueIsEmpty_returns (g := g) unlocked.gtq

theorem queueIsEmpty_cons (unlocked : Unlocked g.held) (queue : g.data.gtq = t :: rest) :
    Returns g queueIsEmpty false g.data := by
  simpa [queue] using queueIsEmpty_returns (g := g) unlocked.gtq

theorem fillIdle_head (cpu : Cpu) (unlocked : Unlocked g.held) (queue : g.data.gtq = t :: rest)
    (status : g.data.status t = .ready ∨ g.data.status t = .new) :
    Returns g (fillIdle cpu) { cpu with current := some t } (g.data.take t cpu.id rest) := by
  apply (queueIsEmpty_cons unlocked queue).bind
  exact (queueAssign_head unlocked queue status true cpu.id).bind (.pure _)

variable (unlocked : Unlocked g.held)
include unlocked

theorem fillIdle_empty (queue : g.data.gtq = []) : Returns g (fillIdle cpu) cpu g.data :=
  (queueIsEmpty_nil unlocked queue).bind (.pure _)

theorem cpuNext_returns (filled : cpu.next = some n) :
    Returns g (cpuNext cpu) { cpu with current := some n, next := none } g.data := by
  simp only [cpuNext, filled]
  exact .retain (unlocked.tasks _) (.pure _)

theorem rotateBusy_alone (queue : g.data.gtq = []) (free : cpu.next = none) :
    Returns g (rotateBusy cpu) cpu g.data := by
  apply (queueIsEmpty_nil unlocked queue).bind
  simp only [↓reduceIte, useNextSlot, cpuIsNextFree, free, beq_self_eq_true]
  exact .pure _

theorem rotateBusy_promote (queue : g.data.gtq = []) (empty : cpu.current = none) (filled : cpu.next = some n) :
    Returns g (rotateBusy cpu) { cpu with current := some n, next := none } g.data := by
  apply (queueIsEmpty_nil unlocked queue).bind
  have busy : cpuIsNextFree cpu = false := by simp [cpuIsNextFree, filled]
  simp only [↓reduceIte, useNextSlot, busy, empty, Bool.false_eq_true]
  exact cpuNext_returns unlocked filled

theorem rotateBusy_swap (queue : g.data.gtq = []) (runs : cpu.current = some c) (filled : cpu.next = some n)
    (distinct : n ≠ c) :
    Returns g (rotateBusy cpu) { cpu with current := some n, next := some c } (g.data.park c) := by
  apply (queueIsEmpty_nil unlocked queue).bind
  have busy : cpuIsNextFree cpu = false := by simp [cpuIsNextFree, filled]
  simp only [↓reduceIte, useNextSlot, busy, runs, Bool.false_eq_true, reduceCtorEq, cpuSwapTask,
    filled]
  apply Returns.retain (unlocked.tasks _)
  apply Returns.retain (by simp [unlocked.tasks, distinct])
  exact (leaveProcessor_returns c).bind (.pure _)

theorem rotateBusy_requeue (queue : g.data.gtq = t :: rest) (runs : cpu.current = some c) (free : cpu.next = none)
    (distinct : t ≠ c)
    (first : g.data.status t = .ready ∨ g.data.status t = .new)
    {second : TaskRef} {left : List TaskRef} (behind : rest ++ [c] = second :: left)
    (next : (g.data.park c).status second = .ready ∨ (g.data.park c).status second = .new) :
    Returns g (rotateBusy cpu) { cpu with current := some t, next := some second }
      (((g.data.put c).take t cpu.id (rest ++ [c])).take second cpu.id left) := by
  apply (queueIsEmpty_cons unlocked queue).bind
  simp only [Bool.false_eq_true, ↓reduceIte, putCurrent, runs]
  apply (queuePut_returns unlocked.toQueueFree c).bind
  simp only [fillCurrent, cpuIsNextFree, free, beq_self_eq_true, ↓reduceIte]
  have line : (g.data.put c).gtq = t :: (rest ++ [c]) := by simp [queue]
  have head := queueAssign_head (g := g.withData (g.data.put c)) unlocked line
    (by simpa [distinct] using first) true cpu.id
  have filled := queueAssign_head (g := g.withData ((g.data.put c).take t cpu.id (rest ++ [c])))
    unlocked behind (by simpa using next) false cpu.id
  exact .bind (.bind head (.pure _)) (.bind filled (.pure _))

theorem rotateBusy_advance (queue : g.data.gtq ≠ []) (filled : cpu.next = some n) {k : Kernel}
    (put : Returns g (putCurrent cpu) () k)
    {first : TaskRef} {left : List TaskRef} (behind : k.gtq = first :: left)
    (next : k.status first = .ready ∨ k.status first = .new) :
    Returns g (rotateBusy cpu) { cpu with current := some n, next := some first }
      (k.take first cpu.id left) := by
  obtain ⟨t, rest, shape⟩ := List.exists_cons_of_ne_nil queue
  apply (queueIsEmpty_cons unlocked shape).bind
  apply put.bind
  have busy : cpuIsNextFree cpu = false := by simp [cpuIsNextFree, filled]
  simp only [fillCurrent, busy, ↓reduceIte, Bool.false_eq_true]
  apply (cpuNext_returns (g := g.withData k) unlocked filled).bind
  exact (queueAssign_head (g := g.withData k) unlocked behind next false cpu.id).bind (.pure _)

end Pick

/-- A state between the removal of a zombie and the choice of the next task. -/
structure Settled (cpu : Cpu) (k : Kernel) : Prop where
  nodup : (order cpu k).Nodup
  idleApart : cpu.idle ∉ waiting cpu k
  runnable : ∀ t ∈ waiting cpu k, k.status t = .ready ∨ k.status t = .new
  running : ∀ c, live cpu = some c → k.status c = .running
  resting : cpu.current = some cpu.idle → cpu.next = none

/-- The choice of the next task moves the live task behind all that wait. -/
structure Turned (cpu : Cpu) (k : Kernel) (after : Cpu) (k' : Kernel) : Prop where
  sameId : after.id = cpu.id
  sameIdle : after.idle = cpu.idle
  rotated : order after k' = waiting cpu k ++ (live cpu).toList
  resting : live after = none → order after k' = []
  status : ∀ t, k'.status t =
    if live cpu = some t ∧ waiting cpu k ≠ [] then .ready else k.status t
  context : ∀ t, k'.context t = k.context t
  destroyed : k'.destroyed = k.destroyed
  ready : k'.ready = k.ready

section Turn

variable {g : Guarded LockName Kernel} {cpu : Cpu} {c n : TaskRef}

theorem live_some (runs : cpu.current = some c) (other : c ≠ cpu.idle) : live cpu = some c := by
  simp [live, runs, other]

theorem live_none (rests : cpu.current = none ∨ cpu.current = some cpu.idle) : live cpu = none := by
  rcases rests with empty | idle
  · simp [live, empty]
  · simp [live, idle]

theorem live_ne_idle (lives : live cpu = some c) : c ≠ cpu.idle := by
  have apart := (Option.filter_eq_some_iff.mp lives).2
  simpa using apart

theorem live_current (lives : live cpu = some c) : cpu.current = some c :=
  (Option.filter_eq_some_iff.mp lives).1

theorem live_cases (cpu : Cpu) :
    (live cpu = none ∧ (cpu.current = none ∨ cpu.current = some cpu.idle)) ∨
      ∃ c, live cpu = some c ∧ cpu.current = some c ∧ c ≠ cpu.idle := by
  cases runs : cpu.current with
  | none => exact .inl ⟨live_none (.inl runs), .inl rfl⟩
  | some c =>
    by_cases idle : c = cpu.idle
    · exact .inl ⟨live_none (.inr (by rw [runs, idle])), .inr (by rw [idle])⟩
    · exact .inr ⟨c, live_some runs idle, rfl, idle⟩

theorem Settled.ne_idle (settled : Settled cpu g.data) {t : TaskRef} (member : t ∈ waiting cpu g.data) :
    t ≠ cpu.idle := by
  intro same
  rw [same] at member
  exact settled.idleApart member

theorem Settled.ne_live (settled : Settled cpu g.data) (lives : live cpu = some c) {t : TaskRef}
    (member : t ∈ waiting cpu g.data) : t ≠ c := by
  intro same
  have nodup := settled.nodup
  rw [order, lives, Option.toList_some, List.singleton_append, List.nodup_cons] at nodup
  rw [same] at member
  exact nodup.1 member

variable (unlocked : Unlocked g.held) (settled : Settled cpu g.data)
include unlocked settled

theorem fillIdle_turns (rests : cpu.current = none ∨ cpu.current = some cpu.idle) (free : cpu.next = none) :
    ∃ after k', Returns g (fillIdle cpu) after k' ∧ Turned cpu g.data after k' := by
  have nobody := live_none rests
  have line : waiting cpu g.data = g.data.gtq := by simp [waiting, free]
  cases queue : g.data.gtq with
  | nil =>
    refine ⟨cpu, g.data, fillIdle_empty unlocked queue, rfl, rfl, ?_, fun _ => ?_, ?_, fun _ => rfl,
      rfl, rfl⟩
    · simp [order, nobody]
    · simp [order, nobody, line, queue]
    · simp [nobody]
  | cons t rest =>
    have member : t ∈ waiting cpu g.data := by simp [line, queue]
    have other := settled.ne_idle member
    have found := fillIdle_head cpu unlocked queue (settled.runnable t member)
    have lives : live { cpu with current := some t } = some t := live_some rfl other
    refine ⟨_, _, found, rfl, rfl, ?_, fun none => ?_, ?_, fun _ => take_context .., rfl, rfl⟩
    · rw [order, lives]
      simp [waiting, free, nobody, queue]
    · rw [lives] at none
      cases none
    · simp [nobody]

theorem useNextSlot_turns (queue : g.data.gtq = []) :
    ∃ after k', Returns g (rotateBusy cpu) after k' ∧ Turned cpu g.data after k' := by
  cases slot : cpu.next with
  | none =>
    have line : waiting cpu g.data = [] := by simp [waiting, slot, queue]
    refine ⟨cpu, g.data, rotateBusy_alone unlocked queue slot, rfl, rfl, ?_, fun none => ?_, ?_,
      fun _ => rfl, rfl, rfl⟩
    · simp [order, line]
    · simp [order, line, none]
    · simp [line]
  | some n =>
    have line : waiting cpu g.data = [n] := by simp [waiting, slot, queue]
    have other := settled.ne_idle (t := n) (by simp [line])
    rcases live_cases cpu with ⟨nobody, empty | idle⟩ | ⟨c, lives, runs, apart⟩
    · have now : live { cpu with current := some n, next := none } = some n := live_some rfl other
      refine ⟨_, _, rotateBusy_promote unlocked queue empty slot, rfl, rfl, ?_, fun none => ?_, ?_,
        fun _ => rfl, rfl, rfl⟩
      · simp [order, now, waiting, slot, queue, nobody]
      · rw [now] at none
        cases none
      · simp [nobody]
    · rw [settled.resting idle] at slot
      cases slot
    · have distinct := settled.ne_live lives (t := n) (by simp [line])
      have now : live { cpu with current := some n, next := some c } = some n := live_some rfl other
      have running := settled.running c lives
      refine ⟨_, _, rotateBusy_swap unlocked queue runs slot distinct, rfl, rfl, ?_, fun none => ?_,
        ?_, fun _ => park_context .., park_destroyed .., park_ready ..⟩
      · simp [order, now, waiting, slot, queue, lives]
      · rw [now] at none
        cases none
      · intro t
        simp [lives, line, running, eq_comm]

theorem requeue_turns (queue : g.data.gtq ≠ []) (lives : live cpu = some c) (runs : cpu.current = some c) :
    ∃ after k', Returns g (rotateBusy cpu) after k' ∧ Turned cpu g.data after k' := by
  have running := settled.running c lives
  have parked : (g.data.park c).status c = .ready := by simp [running]
  have ready : ∀ t ∈ g.data.gtq ++ [c],
      (g.data.park c).status t = .ready ∨ (g.data.park c).status t = .new := by
    intro t member
    rcases List.mem_append.mp member with queued | last
    · have line : t ∈ waiting cpu g.data := by simp [waiting, queued]
      rw [park_status_ne _ _ _ (settled.ne_live lives line)]
      exact settled.runnable t line
    · rw [List.mem_singleton.mp last]
      exact .inl parked
  obtain ⟨t, rest, shape⟩ := List.exists_cons_of_ne_nil queue
  have line : waiting cpu g.data ≠ [] := by simp [waiting, shape]
  cases slot : cpu.next with
  | none =>
    have member : t ∈ waiting cpu g.data := by simp [waiting, shape]
    obtain ⟨second, left, behind⟩ : ∃ second left, rest ++ [c] = second :: left :=
      List.exists_cons_of_ne_nil (by simp)
    have moved := rotateBusy_requeue unlocked shape runs slot (settled.ne_live lives member)
      (settled.runnable t member) behind
      (ready second (by rw [shape, List.cons_append, behind]; simp))
    have now : live { cpu with current := some t, next := some second } = some t :=
      live_some rfl (settled.ne_idle member)
    refine ⟨_, _, moved, rfl, rfl, ?_, fun none => ?_, ?_, ?_, ?_, ?_⟩
    · rw [order, now]
      simp [waiting, slot, shape, lives, ← behind]
    · rw [now] at none
      cases none
    · intro u
      simp [lives, line, running, eq_comm]
    · simp
    · simp
    · simp
  | some n =>
    have member : n ∈ waiting cpu g.data := by simp [waiting, slot]
    have put : Returns g (putCurrent cpu) () (g.data.put c) := by
      simp only [putCurrent, runs]
      exact queuePut_returns unlocked.toQueueFree c
    have behind : (g.data.put c).gtq = t :: (rest ++ [c]) := by simp [shape]
    have moved := rotateBusy_advance unlocked queue slot put behind (ready t (by simp [shape]))
    have now : live { cpu with current := some n, next := some t } = some n :=
      live_some rfl (settled.ne_idle member)
    refine ⟨_, _, moved, rfl, rfl, ?_, fun none => ?_, ?_, ?_, ?_, ?_⟩
    · rw [order, now]
      simp [waiting, slot, shape, lives]
    · rw [now] at none
      cases none
    · intro u
      simp [lives, line, running, eq_comm]
    · simp
    · simp
    · simp

theorem advance_turns (queue : g.data.gtq ≠ []) (empty : cpu.current = none) (filled : cpu.next = some n) :
    ∃ after k', Returns g (rotateBusy cpu) after k' ∧ Turned cpu g.data after k' := by
  obtain ⟨t, rest, shape⟩ := List.exists_cons_of_ne_nil queue
  have nobody := live_none (.inl empty)
  have put : Returns g (putCurrent cpu) () g.data := by
    simp only [putCurrent, empty]
    exact .pure ()
  have moved := rotateBusy_advance unlocked queue filled put shape
    (settled.runnable t (by simp [waiting, shape]))
  have now : live { cpu with current := some n, next := some t } = some n :=
    live_some rfl (settled.ne_idle (by simp [waiting, filled]))
  refine ⟨_, _, moved, rfl, rfl, ?_, fun none => ?_, ?_, ?_, ?_, ?_⟩
  · rw [order, now]
    simp [waiting, filled, shape, nobody]
  · rw [now] at none
    cases none
  · simp [nobody]
  · simp
  · simp
  · simp

theorem pickTasks_turns : ∃ after k', Returns g (pickTasks cpu) after k' ∧ Turned cpu g.data after k' := by
  rcases live_cases cpu with ⟨nobody, rests⟩ | ⟨c, lives, runs, apart⟩
  · cases slot : cpu.next with
    | none =>
      have idle : cpuIsIdle cpu = true := by
        rcases rests with empty | idle
        · simp [cpuIsIdle, slot, empty]
        · simp [cpuIsIdle, slot, idle]
      simp only [pickTasks, idle, ↓reduceIte]
      exact fillIdle_turns unlocked settled rests slot
    | some n =>
      have empty : cpu.current = none := by
        rcases rests with empty | idle
        · exact empty
        · rw [settled.resting idle] at slot
          cases slot
      simp only [pickTasks, cpuIsIdle, slot, Option.some_beq_none, Bool.and_false,
        Bool.false_eq_true, ↓reduceIte]
      by_cases queue : g.data.gtq = []
      · exact useNextSlot_turns unlocked settled queue
      · exact advance_turns unlocked settled queue empty slot
  · have busy : cpuIsIdle cpu = false := by simp [cpuIsIdle, runs, apart]
    simp only [pickTasks, busy, Bool.false_eq_true, ↓reduceIte]
    by_cases queue : g.data.gtq = []
    · exact useNextSlot_turns unlocked settled queue
    · exact requeue_turns unlocked settled queue lives runs

end Turn

/-- What holds between two events on a single processor. -/
structure Steady (cpu : Cpu) (k : Kernel) : Prop where
  nodup : (order cpu k).Nodup
  idleApart : cpu.idle ∉ waiting cpu k
  runnable : ∀ t ∈ waiting cpu k, k.status t = .ready ∨ k.status t = .new
  alive : ∀ c, cpu.current = some c → k.status c = .running ∨ k.status c = .zombie
  resting : live cpu = none → cpu.next = none
  idleStatus : k.status cpu.idle ≠ .zombie
  outside : ∀ t, t ≠ cpu.idle → t ∉ order cpu k → k.status t = .embryo ∨ k.status t = .zombie

/-- The live task that a cycle will not destroy. -/
def survivor (cpu : Cpu) (k : Kernel) : Option TaskRef :=
  (live cpu).filter (k.status · ≠ .zombie)

def doomed (cpu : Cpu) (k : Kernel) : Option TaskRef :=
  (live cpu).filter (k.status · = .zombie)

/-- The effect of `sched_cycle` on the slots, the queue and the tasks. -/
structure Cycled (cpu : Cpu) (k : Kernel) (after : Cpu) (k' : Kernel) : Prop where
  sameId : after.id = cpu.id
  sameIdle : after.idle = cpu.idle
  rotated : order after k' = waiting cpu k ++ (survivor cpu k).toList
  current : after.current = some ((order after k').head?.getD cpu.idle)
  resting : live after = none → after.next = none
  status : ∀ t, k'.status t =
    if after.current = some t then .running
    else if survivor cpu k = some t then .ready else k.status t
  context : ∀ t, k'.context t = k.context t
  destroyed : k'.destroyed = k.destroyed ++ (doomed cpu k).toList
  ready : k'.ready = k.ready

section Cycle

variable {g : Guarded LockName Kernel} {cpu : Cpu}

theorem Steady.settled (steady : Steady cpu g.data)
    (survives : ∀ c, live cpu = some c → g.data.status c ≠ .zombie) : Settled cpu g.data where
  nodup := steady.nodup
  idleApart := steady.idleApart
  runnable := steady.runnable
  running c lives := (steady.alive c (live_current lives)).resolve_right (survives c lives)
  resting idle := steady.resting (live_none (.inr idle))

theorem Steady.current_spared (steady : Steady cpu g.data)
    (survives : ∀ c, live cpu = some c → g.data.status c ≠ .zombie) :
    ∀ c, cpu.current = some c → g.data.status c ≠ .zombie := by
  intro c runs
  by_cases idle : c = cpu.idle
  · rw [idle]
    exact steady.idleStatus
  · exact survives c (live_some runs idle)

/-- What the removal of a zombie leaves. -/
structure Reaped (cpu : Cpu) (k : Kernel) (mid : Cpu) (k' : Kernel) : Prop where
  sameId : mid.id = cpu.id
  sameIdle : mid.idle = cpu.idle
  settled : Settled mid k'
  live : live mid = survivor cpu k
  waiting : waiting mid k' = waiting cpu k
  tasks : k'.tasks = k.tasks
  destroyed : k'.destroyed = k.destroyed ++ (doomed cpu k).toList
  ready : k'.ready = k.ready

theorem reapZombie_returns (unlocked : Unlocked g.held) (steady : Steady cpu g.data) :
    ∃ mid k', Returns g (reapZombie cpu) mid k' ∧ Reaped cpu g.data mid k' := by
  by_cases survives : ∀ c, live cpu = some c → g.data.status c ≠ .zombie
  · have kept : survivor cpu g.data = live cpu := by
      cases lives : live cpu with
      | none => simp [survivor, lives]
      | some c => simp [survivor, lives, survives c lives]
    have nobody : doomed cpu g.data = none := by
      cases lives : live cpu with
      | none => simp [doomed, lives]
      | some c => simp [doomed, lives, survives c lives]
    refine ⟨cpu, g.data, reapZombie_spares (steady.current_spared survives), rfl, rfl, steady.settled survives,
      kept.symm, rfl, rfl, ?_, rfl⟩
    simp [nobody]
  · obtain ⟨c, lives, zombie⟩ : ∃ c, live cpu = some c ∧ g.data.status c = .zombie := by
      simpa using survives
    have runs := live_current lives
    obtain ⟨calls, destroys⟩ := reapZombie_destroys unlocked.toCycleFree.destroyFree runs zombie
    have dead : doomed cpu g.data = some c := by simp [doomed, lives, zombie]
    have nobody : Tasks.live { cpu with current := none } = none := live_none (.inl rfl)
    have nodup : (Tasks.waiting cpu g.data).Nodup := (List.nodup_append.mp steady.nodup).2.1
    refine ⟨_, _, destroys, rfl, rfl, ⟨?_, steady.idleApart, steady.runnable, ?_, ?_⟩, ?_, rfl, rfl,
      ?_, rfl⟩
    · rw [order, nobody]
      exact nodup
    · intro other lives'
      rw [nobody] at lives'
      cases lives'
    · intro idle
      cases idle
    · rw [nobody, survivor, lives]
      exact (Option.filter_some_neg (by simp [zombie])).symm
    · simp [dead]

theorem order_head {k : Kernel} {c : TaskRef} (lives : live cpu = some c) :
    (order cpu k).head? = some c := by
  simp [order, lives]

theorem schedCycle_returns (unlocked : Unlocked g.held) (steady : Steady cpu g.data) :
    ∃ after k', Returns g (schedCycle cpu) after k' ∧ Cycled cpu g.data after k' := by
  obtain ⟨mid, k₁, reaps, reaped⟩ := reapZombie_returns unlocked steady
  obtain ⟨chosen, k₂, picks, turned⟩ := pickTasks_turns (g := g.withData k₁) unlocked reaped.settled
  have marks : Returns (g.withData k₂) (markRunning chosen)
      { chosen with current := some (chosen.current.getD chosen.idle) }
      (k₂.setStatus (chosen.current.getD chosen.idle) .running) :=
    (Returns.modifyData _).bind (.pure _)
  have idle : chosen.idle = cpu.idle := turned.sameIdle.trans reaped.sameIdle
  have sameLive : live { chosen with current := some (chosen.current.getD chosen.idle) } =
      live chosen := by
    rcases live_cases chosen with ⟨_, empty | rests⟩ | ⟨c, _, runs, _⟩
    · simp [live, empty]
    · simp [live, rests]
    · simp [live, runs]
  have same : order { chosen with current := some (chosen.current.getD chosen.idle) }
      (k₂.setStatus (chosen.current.getD chosen.idle) .running) = order chosen k₂ :=
    congrArg (·.toList ++ waiting chosen k₂) sameLive
  have first : chosen.current.getD chosen.idle = (order chosen k₂).head?.getD cpu.idle := by
    rcases live_cases chosen with ⟨nobody, rests⟩ | ⟨c, lives, runs, _⟩
    · rw [turned.resting nobody, ← idle]
      rcases rests with empty | rests
      · simp [empty]
      · simp [rests]
    · rw [order_head lives, runs]
      rfl
  have rotated : order chosen k₂ = waiting cpu g.data ++ (survivor cpu g.data).toList := by
    rw [turned.rotated, reaped.live]
    exact congrArg (· ++ _) reaped.waiting
  refine ⟨_, _, reaps.bind (picks.bind marks), ?_⟩
  refine ⟨turned.sameId.trans reaped.sameId, idle, same.trans rotated, ?_, ?_, ?_, ?_, ?_, ?_⟩
  · rw [same]
    exact congrArg some first
  · intro none
    rw [sameLive] at none
    have empty := turned.resting none
    simp only [order, waiting, List.append_eq_nil_iff, Option.toList_eq_nil_iff] at empty
    exact empty.2.1
  · intro t
    have before : k₁.status t = g.data.status t := by simp only [Kernel.status, reaped.tasks]
    simp only [setStatus_status, turned.status, reaped.live, before, Option.some.injEq,
      Guarded.withData_data, reaped.waiting]
    by_cases chosenTask : chosen.current.getD chosen.idle = t
    · simp [chosenTask]
    · have different : t ≠ chosen.current.getD chosen.idle := fun same => chosenTask same.symm
      simp only [different, chosenTask, ↓reduceIte]
      by_cases survives : survivor cpu g.data = some t
      · -- a survivor with nobody waiting would be the task chosen
        have line : waiting cpu g.data ≠ [] := by
          intro empty
          rw [first, rotated, empty, survives] at chosenTask
          exact chosenTask rfl
        simp [survives, line]
      · simp [survives]
  · intro t
    rw [setStatus_context, turned.context]
    simp only [Kernel.context, Guarded.withData_data, reaped.tasks]
  · exact turned.destroyed.trans reaped.destroyed
  · exact turned.ready.trans reaped.ready

end Cycle

section Preservation

variable {cpu after : Cpu} {k k' : Kernel}

theorem mem_survivor {t : TaskRef} (kept : survivor cpu k = some t) :
    live cpu = some t ∧ k.status t ≠ .zombie := by
  obtain ⟨lives, spared⟩ := Option.filter_eq_some_iff.mp kept
  exact ⟨lives, by simpa using spared⟩

theorem doomed_append_survivor (cpu : Cpu) (k : Kernel) :
    (doomed cpu k).toList ++ (survivor cpu k).toList = (live cpu).toList := by
  cases lives : live cpu with
  | none => simp [doomed, survivor, lives]
  | some c =>
    by_cases zombie : k.status c = .zombie
    · simp [doomed, survivor, lives, zombie, Option.filter]
    · simp [doomed, survivor, lives, zombie, Option.filter]

variable (cycled : Cycled cpu k after k')
include cycled

theorem Cycled.perm : (k'.destroyed ++ order after k').Perm (k.destroyed ++ order cpu k) := by
  rw [cycled.destroyed, cycled.rotated, List.append_assoc]
  apply List.Perm.append_left
  have turn : (waiting cpu k ++ (survivor cpu k).toList).Perm
      ((survivor cpu k).toList ++ waiting cpu k) := List.perm_append_comm
  have whole := turn.append_left (doomed cpu k).toList
  rw [← List.append_assoc, ← List.append_assoc, doomed_append_survivor] at whole
  rw [← List.append_assoc]
  exact whole

theorem Cycled.nodup (steady : Steady cpu k) : (order after k').Nodup := by
  have whole := steady.nodup
  rw [order, ← doomed_append_survivor cpu k, List.append_assoc] at whole
  have kept := (List.nodup_append.mp whole).2.1
  rw [cycled.rotated]
  exact List.perm_append_comm.nodup_iff.mp kept

theorem Cycled.idle_notMem (steady : Steady cpu k) : cpu.idle ∉ order after k' := by
  intro member
  rw [cycled.rotated] at member
  rcases List.mem_append.mp member with line | kept
  · exact steady.idleApart line
  · exact live_ne_idle (mem_survivor (Option.mem_toList.mp kept)).1 rfl

theorem Cycled.current_notMem (steady : Steady cpu k) {t : TaskRef} (runs : after.current = some t) :
    t ∉ waiting after k' := by
  intro member
  have apart : t ≠ after.idle := by
    intro same
    rw [same, cycled.sameIdle] at member
    exact cycled.idle_notMem steady (List.mem_append_right _ member)
  have nodup := cycled.nodup steady
  rw [order, live_some runs apart, Option.toList_some, List.singleton_append,
    List.nodup_cons] at nodup
  exact nodup.1 member

theorem Cycled.steady (steady : Steady cpu k) : Steady after k' where
  nodup := cycled.nodup steady
  idleApart := by
    rw [cycled.sameIdle]
    exact fun member => cycled.idle_notMem steady (List.mem_append_right _ member)
  runnable t member := by
    have apart : after.current ≠ some t := fun runs => cycled.current_notMem steady runs member
    rw [cycled.status, if_neg apart]
    by_cases kept : survivor cpu k = some t
    · simp [kept]
    · have line : t ∈ order after k' := List.mem_append_right _ member
      rw [cycled.rotated] at line
      rcases List.mem_append.mp line with line | last
      · simpa [kept] using steady.runnable t line
      · exact absurd (Option.mem_toList.mp last) kept
  alive c runs := by
    rw [cycled.status, if_pos runs]
    exact .inl rfl
  resting := cycled.resting
  idleStatus := by
    rw [cycled.sameIdle, cycled.status]
    have apart : survivor cpu k ≠ some cpu.idle :=
      fun kept => live_ne_idle (mem_survivor kept).1 rfl
    by_cases rests : after.current = some cpu.idle
    · simp [rests]
    · simpa [rests, apart] using steady.idleStatus
  outside t apart absent := by
    rw [cycled.sameIdle] at apart
    have off : after.current ≠ some t := by
      intro runs
      have lives : live after = some t := live_some runs (by rwa [cycled.sameIdle])
      exact absent (by simp [order, lives])
    rw [cycled.rotated, List.mem_append, not_or] at absent
    have lost : survivor cpu k ≠ some t := fun kept => absent.2 (Option.mem_toList.mpr kept)
    rw [cycled.status, if_neg off, if_neg lost]
    by_cases lives : live cpu = some t
    · by_cases zombie : k.status t = .zombie
      · exact .inr zombie
      · exact absurd (by simp [survivor, lives, zombie]) lost
    · exact steady.outside t apart (by simp [order, lives, absent.1])

end Preservation

end Neutrino.Tasks
