import Neutrino.Tasks.Smp

namespace Neutrino.Tasks

open Library

theorem cpuIsIdle_iff (cpu : Cpu) :
    cpuIsIdle cpu = true ↔ (cpu.current = none ∨ cpu.current = some cpu.idle) ∧ cpu.next = none := by
  simp [cpuIsIdle]

/-- How the slots of a processor stand to its idle task, at each place of a cycle. -/
def Core.Consistent (core : Core) : Prop :=
  match core.pc with
  | .outside | .reap | .decide => core.slots.current = some core.slots.idle → core.slots.next = none
  | .idleTest | .idleAssign =>
    core.slots.next = none ∧
      (core.slots.current = none ∨ core.slots.current = some core.slots.idle)
  | .busyTest | .useNext | .put =>
    core.slots.current ≠ some core.slots.idle ∧
      (core.slots.current = none → core.slots.next ≠ none)
  | .fillCurrent => True
  | .fillNext => core.slots.current ≠ none ∧ core.slots.current ≠ some core.slots.idle
  | .finish =>
    core.slots.current = none ∨ core.slots.current = some core.slots.idle → core.slots.next = none

/-- The tasks of a processor and of the queue are ordinary ones, apart from the processor's own
    idle task in its current slot. -/
structure Core.Ordinary (ordinary : TaskRef → Prop) (core : Core) (k : Kernel) : Prop where
  queue : ∀ t ∈ k.gtq, ordinary t
  next : ∀ t, core.slots.next = some t → ordinary t
  current : ∀ t, core.slots.current = some t → t = core.slots.idle ∨ ordinary t

section Moves

variable {g : Guarded LockName Kernel} {core core' : Core} {k : Kernel} {ordinary : TaskRef → Prop}

theorem CoreMove.keepsOrdinary (move : CoreMove g core core' k) (plain : core.Ordinary ordinary g.data)
    (consistent : core.Consistent) : core'.Ordinary ordinary k := by
  have taken : ∀ {before after : List TaskRef} {t : TaskRef}, g.data.gtq = before ++ t :: after →
      ordinary t ∧ ∀ u ∈ before ++ after, ordinary u := by
    intro before after t queue
    constructor
    · exact plain.queue t (by simp [queue])
    · intro u member
      apply plain.queue u
      rw [queue]
      rcases List.mem_append.mp member with left | right
      · simp [left]
      · simp [right]
  cases move with
  | enter | idle | busy | idleEmpty | idleQueued | busyEmpty | busyQueued | spare | alone | putNone =>
    exact ⟨plain.queue, plain.next, plain.current⟩
  | destroy | idleNone | drained => exact ⟨plain.queue, plain.next, by simp⟩
  | idleSome cpu t before after queue picked =>
    obtain ⟨own, rest⟩ := taken queue
    exact ⟨rest, plain.next, by simpa using .inr own⟩
  | promote cpu n empty filled =>
    exact ⟨plain.queue, by simp, by simpa using .inr (plain.next n filled)⟩
  | swap cpu c n runs filled =>
    refine ⟨by simpa using plain.queue, ?_, by simpa using .inr (plain.next n filled)⟩
    have own : ordinary c := (plain.current c runs).resolve_left fun same =>
      consistent.1 (by simpa [same] using runs)
    simpa using own
  | putSome cpu c runs =>
    refine ⟨?_, plain.next, plain.current⟩
    have own : ordinary c := (plain.current c runs).resolve_left fun same =>
      consistent.1 (by simpa [same] using runs)
    intro t member
    rw [put_gtq, List.mem_append, List.mem_singleton] at member
    rcases member with queued | rfl
    · exact plain.queue t queued
    · exact own
  | refill cpu t before after free queue picked =>
    obtain ⟨own, rest⟩ := taken queue
    exact ⟨rest, plain.next, by simpa using .inr own⟩
  | advance cpu n filled =>
    exact ⟨plain.queue, by simp, by simpa using .inr (plain.next n filled)⟩
  | nextNone => exact ⟨plain.queue, by simp, plain.current⟩
  | nextSome cpu t before after queue picked =>
    obtain ⟨own, rest⟩ := taken queue
    exact ⟨rest, by simpa using own, plain.current⟩
  | finish cpu =>
    refine ⟨plain.queue, plain.next, ?_⟩
    cases runs : cpu.current with
    | none => simp
    | some c => simpa using plain.current c runs

theorem CoreMove.consistent (move : CoreMove g core core' k) (plain : core.Ordinary ordinary g.data)
    (idle : ¬ ordinary core.slots.idle) (consistent : core.Consistent)
    (undrained : core.pc = .fillCurrent → core.slots.next = none →
      ∃ t ∈ g.data.gtq, pickable g t = true) : core'.Consistent := by
  have other : ∀ t, ordinary t → t ≠ core.slots.idle := by
    intro t own same
    rw [same] at own
    exact idle own
  have queued : ∀ {before after : List TaskRef} {t : TaskRef}, g.data.gtq = before ++ t :: after →
      t ≠ core.slots.idle := fun queue => other _ (plain.queue _ (by simp [queue]))
  cases move with
  | enter | spare => exact consistent
  | destroy => simp [Core.Consistent]
  | idle cpu rests =>
    obtain ⟨current, next⟩ := (cpuIsIdle_iff cpu).mp rests
    exact ⟨next, current⟩
  | busy cpu works =>
    have awake : ¬ ((cpu.current = none ∨ cpu.current = some cpu.idle) ∧ cpu.next = none) := by
      rw [← cpuIsIdle_iff, works]
      simp
    refine ⟨fun rests => awake ⟨.inr rests, consistent rests⟩, fun empty free => ?_⟩
    exact awake ⟨.inl empty, free⟩
  | idleEmpty => exact fun _ => consistent.1
  | idleQueued => exact consistent
  | idleNone => exact fun _ => consistent.1
  | idleSome => exact fun _ => consistent.1
  | busyEmpty | busyQueued => exact consistent
  | alone cpu free => exact fun _ => free
  | promote => exact fun _ => rfl
  | swap cpu c n runs filled =>
    have apart := other n (plain.next n filled)
    simp [Core.Consistent, apart]
  | putNone | putSome => trivial
  | drained cpu free nothing =>
    obtain ⟨t, member, picked⟩ := undrained rfl free
    rw [nothing t member] at picked
    cases picked
  | refill cpu t before after free queue picked =>
    have apart := queued queue
    simp [Core.Consistent, apart]
  | advance cpu n next =>
    have apart := other n (plain.next n next)
    simp [Core.Consistent, apart]
  | nextNone => exact fun _ => rfl
  | nextSome => exact fun rests => absurd rests (not_or.mpr consistent)
  | finish cpu =>
    intro rests
    apply consistent
    cases runs : cpu.current with
    | none => exact .inl rfl
    | some c => simpa [runs] using rests

end Moves

theorem CoreMove.mem_queue {g : Guarded LockName Kernel} {core core' : Core} {k : Kernel}
    (move : CoreMove g core core' k) {t : TaskRef} (member : t ∈ g.data.gtq)
    (locked : g.held (.task t) = true) : t ∈ k.gtq := by
  have left : ∀ {before after : List TaskRef} {u : TaskRef}, g.data.gtq = before ++ u :: after →
      pickable g u = true → t ∈ before ++ after := by
    intro before after u queue picked
    have other : t ≠ u := by
      intro same
      rw [← same, pickable, locked] at picked
      cases picked
    rw [queue] at member
    simpa [other] using member
  cases move with
  | idleSome cpu u before after queue picked => exact left queue picked
  | refill cpu u before after free queue picked => exact left queue picked
  | nextSome cpu u before after queue picked => exact left queue picked
  | putSome => simp [member]
  | swap => simpa using member
  | _ => exact member

theorem Core.Ordinary.of_queue {ordinary : TaskRef → Prop} {core : Core} {k k' : Kernel}
    (plain : core.Ordinary ordinary k) (queue : ∀ t ∈ k'.gtq, ordinary t) :
    core.Ordinary ordinary k' :=
  ⟨queue, plain.next, plain.current⟩

namespace Smp

variable {n : Nat} {m m' : Smp n}

/-- No processor that has just put its current task back finds nothing to take: the queue was
    not emptied in between, and not all that is left is locked. -/
def Undrained (m : Smp n) : SmpEvent n → Prop
  | .core i => (m.cores i).pc = .fillCurrent → (m.cores i).slots.next = none →
      ∃ t ∈ m.state.data.gtq, pickable m.state t = true
  | _ => True

/-- The idle tasks stay on their own processors, in the current slot. -/
structure IdleApart (m : Smp n) : Prop where
  distinct : Function.Injective fun i => (m.cores i).slots.idle
  fresh : ∀ t ∈ m.starting, ¬ m.isIdle t
  plain : ∀ i, (m.cores i).Ordinary (fun t => ¬ m.isIdle t) m.state.data
  consistent : ∀ i, (m.cores i).Consistent

theorem init_idleApart (prior : TaskRef → Task) (idle : Fin n → TaskRef)
    (distinct : Function.Injective idle) (cpuIdle : W64) (growth : List Nat) :
    (init prior idle cpuIdle growth).IdleApart where
  distinct := distinct
  fresh := by simp [init]
  plain _ := ⟨by simp [init], by simp [init], by simp [init]⟩
  consistent _ := fun _ => rfl

theorem Move.idleApart {event : SmpEvent n} (move : m.Move event m') (apart : m.IdleApart)
    (undrained : m.Undrained event) : m'.IdleApart := by
  have same := move.isIdle_iff
  have distinct : Function.Injective fun i => (m'.cores i).slots.idle := by
    simp only [move.sameIdle]
    exact apart.distinct
  cases move with
  | core i core k move =>
    have idle : ¬ ¬ m.isIdle (m.cores i).slots.idle := fun out => out ⟨i, rfl⟩
    have kept := move.keepsOrdinary (apart.plain i) (apart.consistent i)
    refine ⟨distinct, ?_, ?_, ?_⟩
    · simpa only [same] using apart.fresh
    · intro j
      simp only [same]
      by_cases own : j = i
      · subst own
        simpa using kept
      · simpa [own] using (apart.plain j).of_queue kept.queue
    · intro j
      by_cases own : j = i
      · subst own
        simpa using move.consistent (apart.plain j) idle (apart.consistent j) undrained
      · simpa [own] using apart.consistent j
  | terminate i c outside lives =>
    exact ⟨distinct, apart.fresh, fun j => (apart.plain j).of_queue (apart.plain i).queue,
      apart.consistent⟩
  | startBegin t entryPoint other fresh =>
    refine ⟨distinct, ?_, fun j => (apart.plain j).of_queue (apart.plain j).queue, apart.consistent⟩
    intro u member
    rcases List.mem_cons.mp member with rfl | member
    · exact other
    · exact apart.fresh u member
  | startPut t member =>
    have queue : ∀ i : Fin n, ∀ u ∈ (m.state.data.put t).gtq, ¬ m.isIdle u := by
      intro i u queued
      rw [put_gtq, List.mem_append, List.mem_singleton] at queued
      rcases queued with old | rfl
      · exact (apart.plain i).queue u old
      · exact apart.fresh u member
    exact ⟨distinct, fun u started => apart.fresh u (List.mem_of_mem_erase started),
      fun j => (apart.plain j).of_queue (queue j), apart.consistent⟩
  | startEnd t member =>
    exact ⟨distinct, apart.fresh, fun j => (apart.plain j).of_queue (apart.plain j).queue,
      apart.consistent⟩

/-- Each task in at most one place, and no idle task current on another processor. -/
structure Exclusive (m : Smp n) : Prop where
  places : ∀ t, m.places t ≤ 1
  idle : ∀ i j, (m.cores i).slots.current = some (m.cores j).slots.idle → i = j

theorem IdleApart.current (apart : m.IdleApart) (i j : Fin n)
    (runs : (m.cores i).slots.current = some (m.cores j).slots.idle) : i = j := by
  rcases (apart.plain i).current _ runs with own | ordinary
  · exact (apart.distinct own).symm
  · exact absurd ⟨j, rfl⟩ ordinary

theorem IdleApart.places_le (apart : m.IdleApart) (j : Fin n) :
    m.places (m.cores j).slots.idle ≤ 1 := by
  have queue : m.state.data.gtq.count (m.cores j).slots.idle = 0 := by
    rw [List.count_eq_zero]
    exact fun member => (apart.plain j).queue _ member ⟨j, rfl⟩
  have next : ∀ i, (m.cores i).slots.next.toList.count (m.cores j).slots.idle = 0 := by
    intro i
    rw [List.count_eq_zero, Option.mem_toList]
    exact fun slot => (apart.plain i).next _ slot ⟨j, rfl⟩
  have current : ∀ i, i ≠ j → (m.cores i).slots.current.toList.count (m.cores j).slots.idle = 0 := by
    intro i other
    rw [List.count_eq_zero, Option.mem_toList]
    exact fun runs => other (apart.current i j runs)
  simp only [places, queue, next, Nat.zero_add]
  rw [Finset.sum_eq_single j]
  · split
    · cases (m.cores j).slots.current with
      | none => simp
      | some c => exact List.count_le_length
    · exact Nat.zero_le 1
  · intro i _ other
    simp [current i other]
  · simp

theorem exclusive_of (placed : m.Placed) (apart : m.IdleApart) : m.Exclusive where
  places t := by
    by_cases idle : m.isIdle t
    · obtain ⟨j, rfl⟩ := idle
      exact apart.places_le j
    · exact placed.places_le idle
  idle := apart.current

/-- Which task locks are held: those of the tasks that are just being started. -/
structure StartLocks (m : Smp n) : Prop where
  held : ∀ t, m.state.held (.task t) = true → t ∈ m.starting ∨ t ∈ m.releasing
  starting : ∀ t ∈ m.starting, m.state.held (.task t) = true
  releasing : ∀ t ∈ m.releasing, t ∈ m.state.data.gtq ∧ m.state.held (.task t) = true
  once : m.releasing.Nodup

theorem starting_notMem_gtq (placed : m.Placed) (apart : m.IdleApart) {t : TaskRef}
    (member : t ∈ m.starting) : t ∉ m.state.data.gtq := by
  intro queued
  have first : 0 < m.starting.count t := List.count_pos_iff.mpr member
  have second : 0 < m.state.data.gtq.count t := List.count_pos_iff.mpr queued
  have bound := placed.bound t (apart.fresh t member)
  unfold total at bound
  split at bound <;> omega

theorem Move.startLocks {event : SmpEvent n} (move : m.Move event m') (placed : m.Placed)
    (apart : m.IdleApart) (locks : m.StartLocks) : m'.StartLocks := by
  cases move with
  | core i core k move =>
    refine ⟨locks.held, locks.starting, fun t member => ?_, locks.once⟩
    obtain ⟨queued, locked⟩ := locks.releasing t member
    exact ⟨move.mem_queue queued locked, locked⟩
  | terminate => exact ⟨locks.held, locks.starting, locks.releasing, locks.once⟩
  | startBegin t entryPoint other fresh =>
    refine ⟨?_, ?_, ?_, locks.once⟩
    · intro u locked
      by_cases same : u = t
      · simp [same]
      · have before := locks.held u (by simpa [same] using locked)
        rcases before with starting | releasing
        · exact .inl (List.mem_cons_of_mem _ starting)
        · exact .inr releasing
    · intro u member
      rcases List.mem_cons.mp member with rfl | member
      · simp
      · simp [locks.starting u member]
    · intro u member
      obtain ⟨queued, locked⟩ := locks.releasing u member
      exact ⟨queued, by simp [locked]⟩
  | startPut t member =>
    refine ⟨?_, fun u started => locks.starting u (List.mem_of_mem_erase started), ?_, ?_⟩
    · intro u locked
      by_cases same : u = t
      · simp [same]
      · rcases locks.held u locked with starting | releasing
        · exact .inl ((List.mem_erase_of_ne same).mpr starting)
        · exact .inr (List.mem_cons_of_mem _ releasing)
    · intro u releasing
      rcases List.mem_cons.mp releasing with rfl | releasing
      · exact ⟨by simp, locks.starting u member⟩
      · obtain ⟨queued, locked⟩ := locks.releasing u releasing
        exact ⟨by simp [queued], locked⟩
    · refine List.nodup_cons.mpr ⟨fun releasing => ?_, locks.once⟩
      exact starting_notMem_gtq placed apart member (locks.releasing t releasing).1
  | startEnd t member =>
    refine ⟨?_, ?_, ?_, locks.once.erase t⟩
    · intro u locked
      have other : u ≠ t := by
        intro same
        simp [same] at locked
      rcases locks.held u (by simpa [other] using locked) with starting | releasing
      · exact .inl starting
      · exact .inr ((List.mem_erase_of_ne other).mpr releasing)
    · intro u started
      have other : u ≠ t := by
        intro same
        rw [same] at started
        exact starting_notMem_gtq placed apart started (locks.releasing t member).1
      simp [other, locks.starting u started]
    · intro u releasing
      have other : u ≠ t := fun same => (locks.once.mem_erase_iff.mp releasing).1 same
      obtain ⟨queued, locked⟩ := locks.releasing u (List.mem_of_mem_erase releasing)
      exact ⟨queued, by simp [other, locked]⟩

end Smp

/-- The status of the current task of the only processor, at the places of a cycle where it
    decides what the queue will offer. -/
def Core.Tracked (g : Guarded LockName Kernel) (core : Core) : Prop :=
  match core.pc with
  | .outside | .reap => ∀ c, core.slots.current = some c →
      g.data.status c = .running ∨ g.data.status c = .zombie
  | .decide | .busyTest | .put => ∀ c, core.slots.current = some c → g.data.status c = .running
  | .fillCurrent =>
    (∀ c, core.slots.current = some c → c ∈ g.data.gtq ∧ pickable g c = true) ∧
      (core.slots.current = none → core.slots.next ≠ none)
  | _ => True

theorem pickable_of_status {g : Guarded LockName Kernel} {t : TaskRef}
    (unlocked : g.held (.task t) = false)
    (status : g.data.status t = .ready ∨ g.data.status t = .new) : pickable g t = true := by
  simp only [pickable, unlocked, Bool.not_false, Bool.true_and, runnable_iff, status]

theorem Core.Tracked.mono {g g' : Guarded LockName Kernel} {core : Core} (tracked : core.Tracked g)
    (kept : ∀ c, core.slots.current = some c →
      (core.pc = .fillCurrent → c ∈ g.data.gtq) → g'.data.status c = g.data.status c ∧
        (c ∈ g.data.gtq → c ∈ g'.data.gtq) ∧
        (g.held (.task c) = false → g'.held (.task c) = false)) : core.Tracked g' := by
  obtain ⟨cpu, pc⟩ := core
  cases pc with
  | outside | reap | decide | busyTest | put =>
    intro c runs
    rw [(kept c runs (by simp)).1]
    exact tracked c runs
  | fillCurrent =>
    refine ⟨fun c runs => ?_, tracked.2⟩
    obtain ⟨queued, picked⟩ := tracked.1 c runs
    obtain ⟨status, stays, unlocks⟩ := kept c runs fun _ => queued
    obtain ⟨free, runnable⟩ : g.held (.task c) = false ∧ (g.data.tasks c).runnable = true := by
      simpa [pickable] using picked
    refine ⟨stays queued, pickable_of_status (unlocks free) ?_⟩
    rw [status]
    exact (runnable_iff g.data c).mp runnable
  | idleTest | idleAssign | useNext | fillNext | finish => trivial

theorem CoreMove.tracked {g : Guarded LockName Kernel} {core core' : Core} {k : Kernel}
    (move : CoreMove g core core' k) (tracked : core.Tracked g) (consistent : core.Consistent)
    (unlocked : ∀ c, core.pc = .put → core.slots.current = some c → g.held (.task c) = false) :
    core'.Tracked (g.withData k) := by
  cases move with
  | enter => exact tracked
  | spare cpu alive => exact fun c runs => (tracked c runs).resolve_right (alive c runs)
  | destroy => simp [Core.Tracked]
  | busy | busyQueued => exact tracked
  | putNone cpu empty =>
    refine ⟨?_, fun _ => consistent.2 empty⟩
    intro c runs
    rw [empty] at runs
    cases runs
  | putSome cpu c runs =>
    have running := tracked c runs
    refine ⟨?_, ?_⟩
    · intro c' runs'
      rw [runs] at runs'
      cases runs'
      refine ⟨by simp, pickable_of_status (unlocked c rfl runs) (.inl ?_)⟩
      simp [running]
    · intro empty
      rw [runs] at empty
      cases empty
  | finish cpu =>
    intro c runs
    cases runs
    exact .inl (by simp)
  | _ => trivial

namespace Smp

variable {m m' : Smp 1}

/-- What the only processor and the starting tasks keep between them. -/
structure Single (m : Smp 1) : Prop where
  placed : m.Placed
  apart : m.IdleApart
  locks : m.StartLocks
  tracked : (m.cores 0).Tracked m.state

theorem init_single (prior : TaskRef → Task) (idle : Fin 1 → TaskRef) (cpuIdle : W64)
    (growth : List Nat) : (init prior idle cpuIdle growth).Single where
  placed := init_placed prior idle cpuIdle growth
  apart := init_idleApart prior idle (Function.injective_of_subsingleton idle) cpuIdle growth
  locks := ⟨by simp [init], by simp [init], by simp [init], by simp [init]⟩
  tracked := by simp [Core.Tracked, init]

theorem Single.undrained (single : m.Single) (event : SmpEvent 1) : m.Undrained event := by
  cases event with
  | core i =>
    rw [Subsingleton.elim i 0]
    intro pc free
    have tracked := single.tracked
    simp only [Core.Tracked, pc] at tracked
    obtain ⟨c, runs⟩ := Option.ne_none_iff_exists'.mp fun empty => tracked.2 empty free
    exact ⟨c, tracked.1 c runs⟩
  | terminate | startBegin | startPut | startEnd => trivial

theorem present_pos {c : TaskRef} (runs : (m.cores 0).slots.current = some c)
    (queued : (m.cores 0).pc = .fillCurrent → c ∈ m.state.data.gtq) :
    0 < m.state.data.gtq.count c + (m.cores 0).owned.count c := by
  by_cases pc : (m.cores 0).pc = .fillCurrent
  · have first := List.count_pos_iff.mpr (queued pc)
    omega
  · simp [Core.owned, pc, runs]

theorem Single.ne_of_starting (single : m.Single) {c t : TaskRef}
    (runs : (m.cores 0).slots.current = some c)
    (queued : (m.cores 0).pc = .fillCurrent → c ∈ m.state.data.gtq) (member : t ∈ m.starting) :
    c ≠ t := by
  intro same
  subst same
  have bound := single.placed.bound c (single.apart.fresh c member)
  have first := present_pos runs queued
  have second : 0 < m.starting.count c := List.count_pos_iff.mpr member
  simp only [total, Fin.sum_univ_one] at bound
  split at bound <;> omega

theorem Single.ne_of_fresh (single : m.Single) {c t : TaskRef}
    (runs : (m.cores 0).slots.current = some c)
    (queued : (m.cores 0).pc = .fillCurrent → c ∈ m.state.data.gtq) (ordinary : ¬ m.isIdle t)
    (fresh : t ∉ m.started) : c ≠ t := by
  intro same
  subst same
  have bound := single.placed.bound c ordinary
  have first := present_pos runs queued
  simp only [total, Fin.sum_univ_one, fresh, ↓reduceIte] at bound
  omega

theorem Single.unlocked_of_owned (single : m.Single) {t : TaskRef} (ordinary : ¬ m.isIdle t)
    (member : t ∈ (m.cores 0).owned) : m.state.held (.task t) = false := by
  by_contra locked
  rw [Bool.not_eq_false] at locked
  have bound := single.placed.bound t ordinary
  have first : 0 < (m.cores 0).owned.count t := List.count_pos_iff.mpr member
  simp only [total, Fin.sum_univ_one] at bound
  rcases single.locks.held t locked with starting | releasing
  · have second : 0 < m.starting.count t := List.count_pos_iff.mpr starting
    split at bound <;> omega
  · have second : 0 < m.state.data.gtq.count t :=
      List.count_pos_iff.mpr (single.locks.releasing t releasing).1
    split at bound <;> omega

theorem Single.ordinary_of_busy (single : m.Single) {c : TaskRef}
    (pc : (m.cores 0).pc = .put ∨ (m.cores 0).pc = .useNext)
    (runs : (m.cores 0).slots.current = some c) : ¬ m.isIdle c := by
  refine ((single.apart.plain 0).current c runs).resolve_left fun same => ?_
  have consistent := single.apart.consistent 0
  rw [same] at runs
  rcases pc with pc | pc
  · simp only [Core.Consistent, pc] at consistent
    exact consistent.1 runs
  · simp only [Core.Consistent, pc] at consistent
    exact consistent.1 runs

theorem Single.unlocked (single : m.Single) {c : TaskRef} (pc : (m.cores 0).pc = .put)
    (runs : (m.cores 0).slots.current = some c) : m.state.held (.task c) = false := by
  apply single.unlocked_of_owned (single.ordinary_of_busy (.inl pc) runs)
  simp [Core.owned, pc, runs]

theorem Move.tracked {event : SmpEvent 1} (move : m.Move event m') (single : m.Single) :
    (m'.cores 0).Tracked m'.state := by
  cases move with
  | core i core k move =>
    rw [Subsingleton.elim i 0] at move
    have after := move.tracked single.tracked (single.apart.consistent 0)
      fun c pc runs => single.unlocked pc runs
    simpa [Subsingleton.elim i 0] using after
  | terminate i c outside lives =>
    rw [Subsingleton.elim i 0] at outside lives
    simp only [Core.Tracked, outside]
    intro c' runs
    rw [live_current lives] at runs
    cases runs
    exact .inr (by simp)
  | startBegin t entryPoint ordinary fresh =>
    refine single.tracked.mono fun c runs queued => ?_
    have other := single.ne_of_fresh runs queued ordinary fresh
    exact ⟨by simp [other], fun member => member, by simp [other]⟩
  | startPut t member =>
    refine single.tracked.mono fun c runs queued => ?_
    have other := single.ne_of_starting runs queued member
    exact ⟨by simp [other], fun member => by simp [member], fun free => free⟩
  | startEnd t member =>
    refine single.tracked.mono fun c runs queued => ⟨rfl, fun member => member, fun free => ?_⟩
    simp [free]

theorem Move.single {event : SmpEvent 1} (move : m.Move event m') (single : m.Single) :
    m'.Single where
  placed := move.placed single.placed
  apart := move.idleApart single.apart (single.undrained event)
  locks := move.startLocks single.placed single.apart single.locks
  tracked := move.tracked single

end Smp

/-- Any number of processors over one queue. A task other than an idle task is never in two
    places. Where no processor finds the queue drained between its `queue_put` and the
    `queue_assign` that follows, idle tasks keep to their processors as well; every run on a single
    processor is such a run. -/
theorem smp_exclusive {n : Nat} (prior : TaskRef → Task) (idle : Fin n → TaskRef)
    (distinct : Function.Injective idle) (cpuIdle : W64) (growth : List Nat)
    (events : List (SmpEvent n)) (m : Smp n) :
    (Run (fun m event next => m.step event = some next) (Smp.init prior idle cpuIdle growth)
        events m → ∀ t, ¬ m.isIdle t → m.places t ≤ 1) ∧
    (Run (fun m event next => m.Undrained event ∧ m.step event = some next)
        (Smp.init prior idle cpuIdle growth) events m → m.Exclusive) ∧
    (n = 1 → Run (fun m event next => m.step event = some next)
        (Smp.init prior idle cpuIdle growth) events m →
      Run (fun m event next => m.Undrained event ∧ m.step event = some next)
        (Smp.init prior idle cpuIdle growth) events m ∧ m.Exclusive) := by
  refine ⟨fun run t ordinary => ?_, fun run => ?_, fun one run => ?_⟩
  · have placed := Smp.run_placed (Smp.init_placed prior idle cpuIdle growth) run
    exact placed.places_le ordinary
  · have kept : ∀ (s : Smp n) (event : SmpEvent n) (next : Smp n), s.Placed ∧ s.IdleApart →
        s.Undrained event ∧ s.step event = some next → next.Placed ∧ next.IdleApart := by
      intro s event next invariant taken
      have move := Smp.step_moves invariant.1.locks taken.2
      exact ⟨move.placed invariant.1, move.idleApart invariant.2 taken.1⟩
    obtain ⟨placed, apart⟩ := run.invariant kept
      ⟨Smp.init_placed prior idle cpuIdle growth, Smp.init_idleApart prior idle distinct cpuIdle growth⟩
    exact Smp.exclusive_of placed apart
  · subst one
    have kept : ∀ (s : Smp 1) (event : SmpEvent 1) (next : Smp 1), s.Single →
        s.step event = some next → next.Single := by
      intro s event next single taken
      exact (Smp.step_moves single.placed.locks taken).single single
    have initial := Smp.init_single prior idle cpuIdle growth
    have single := run.invariant kept initial
    refine ⟨run.mono_of kept (fun s event next single taken => ?_) initial, Smp.exclusive_of single.placed single.apart⟩
    exact ⟨single.undrained event, taken⟩

instance {n : Nat} (m : Smp n) (event : SmpEvent n) : Decidable (m.Undrained event) :=
  match event with
  | .core i => inferInstanceAs (Decidable ((m.cores i).pc = .fillCurrent →
      (m.cores i).slots.next = none → ∃ t ∈ m.state.data.gtq, pickable m.state t = true))
  | .terminate _ | .startBegin _ _ | .startPut _ | .startEnd _ => inferInstanceAs (Decidable True)

def startTask {n : Nat} (t : TaskRef) : List (SmpEvent n) :=
  [.startBegin t 0x400000, .startPut t, .startEnd t]

def stepsOf {n : Nat} (i : Fin n) (count : Nat) : List (SmpEvent n) := List.replicate count (.core i)

/-- Two tasks are started and the first processor takes up one and passes to the other. -/
def undisturbed {n : Nat} (i : Fin n) : List (SmpEvent n) :=
  startTask 2 ++ startTask 3 ++ stepsOf i 6 ++ stepsOf i 8

theorem smp_exclusive_undisturbed :
    (∃ m : Smp 2, (m.cores 0).slots.current = some 3 ∧ m.places 3 ≤ 1 ∧ m.Exclusive) ∧
      ∃ m : Smp 1, (m.cores 0).slots.current = some 3 ∧ m.Exclusive := by
  constructor
  · have reached : ((undisturbed 0).foldlM (fun (m : Smp 2) event =>
        if m.Undrained event then m.step event else none)
        (Smp.init (fun _ => default) ![0, 1] 0 [])).map
        (fun m => ((m.cores 0).slots.current, decide (m.isIdle 3))) = some (some 3, false) := by
      decide +kernel
    obtain ⟨m, taken, facts⟩ := Option.map_eq_some_iff.mp reached
    simp only [Prod.mk.injEq, decide_eq_false_iff_not] at facts
    have run : Run (fun (m : Smp 2) event next => m.Undrained event ∧ m.step event = some next)
        (Smp.init (fun _ => default) ![0, 1] 0 []) (undisturbed 0) m := by
      refine (Run.of_foldlM taken).mono fun s event next step => ?_
      split at step
      · rename_i undrained
        exact ⟨undrained, step⟩
      · cases step
    obtain ⟨ordinary, exclusive, -⟩ := smp_exclusive (fun _ => default) ![0, 1] (by decide) 0 []
      (undisturbed 0) m
    exact ⟨m, facts.1, ordinary (run.mono fun _ _ _ step => step.2) 3 facts.2, exclusive run⟩
  · have reached : ((undisturbed 0).foldlM Smp.step
        (Smp.init (n := 1) (fun _ => default) ![0] 0 [])).map
        (fun m => (m.cores 0).slots.current) = some (some 3) := by decide +kernel
    obtain ⟨m, taken, runs⟩ := Option.map_eq_some_iff.mp reached
    obtain ⟨-, -, exclusive⟩ := smp_exclusive (fun _ => default) ![0] (by decide) 0 []
      (undisturbed 0) m
    exact ⟨m, runs, (exclusive rfl (Run.of_foldlM taken)).2⟩

/-- The second processor empties the queue after the first has put its task back. The first is
    then left with its idle task and a filled next slot, so that its next cycle puts the idle
    task into the queue, where the second processor picks it up. -/
def drainedRun : List (SmpEvent 2) :=
  startTask 2 ++ startTask 3 ++ stepsOf 0 6 ++ stepsOf 0 5 ++ stepsOf 1 6 ++ stepsOf 1 8 ++
    stepsOf 0 1 ++ startTask 4 ++ stepsOf 0 2 ++ startTask 5 ++ stepsOf 0 8 ++ stepsOf 1 8 ++
    stepsOf 1 8

theorem idle_task_runs_elsewhere :
    ∃ m : Smp 2, Run (fun m event next => m.step event = some next)
        (Smp.init (fun _ => default) ![0, 1] 0 []) drainedRun m ∧
      (m.cores 1).slots.current = some (m.cores 0).slots.idle := by
  have reached : (drainedRun.foldlM Smp.step (Smp.init (fun _ => default) ![0, 1] 0 [])).map
      (fun m => ((m.cores 1).slots.current, (m.cores 0).slots.idle)) = some (some 0, 0) := by
    decide +kernel
  obtain ⟨m, taken, facts⟩ := Option.map_eq_some_iff.mp reached
  simp only [Prod.mk.injEq] at facts
  refine ⟨m, Run.of_foldlM taken, ?_⟩
  rw [facts.1, facts.2]

end Neutrino.Tasks
