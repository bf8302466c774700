import Mathlib.Algebra.BigOperators.Group.Multiset.Defs
import Neutrino.Alloc.Client

namespace Neutrino.Alloc.Client

open Library

variable {mem : ByteMemory} {calls calls' : List Call} {c c' : Client} {arenas arenas' : List Arena} {b b' : Block} {e f : Grant}
  {req fuel : Nat} {p q x : W64}

theorem Inv.step {call : Call} (inv : ∃ arenas, c.Inv arenas) (step : Step c call c') : ∃ arenas, c'.Inv arenas := by
  obtain ⟨arenas, inv⟩ := inv
  obtain ⟨arenas', inv', -⟩ := inv.effect step
  exact ⟨arenas', inv'⟩

theorem run_inv (run : Run Step (initial mem) calls c) : ∃ arenas, c.Inv arenas :=
  run.invariant (fun _ _ _ inv step => Inv.step inv step) ⟨[], initial_inv mem⟩

section Grants

variable (inv : c.Inv arenas)
include inv

theorem Inv.pages (member : b ∈ Alloc.live arenas) : ∃ r ∈ c.held, r.1.toNat < b.grant.pointer.toNat ∧
    b.grant.pointer.toNat + b.grant.bytes < r.1.toNat + r.2.toNat * 4096 := by
  obtain ⟨a, listed, inside, low, high, stop, fits⟩ := inv.heap.good.live_bounds member
  obtain ⟨base, bytes⟩ := (inv.heap.good.each a listed).grant_eq
  have pointer : b.grant.pointer.toNat = b.pointer := ofNat_toNat (by omega)
  refine ⟨a.grant, ?_, ?_, ?_⟩
  · rw [inv.held]
    exact List.mem_map_of_mem listed
  · omega
  · simp only [Block.grant] at pointer ⊢
    simp only [Arena.stop] at stop
    omega

theorem Inv.aligned (member : b ∈ Alloc.live arenas) : b.grant.pointer.toNat % 16 = 0 := by
  obtain ⟨a, listed, inside, low, high, stop, fits⟩ := inv.heap.good.live_bounds member
  simp only [Block.grant]
  rw [ofNat_toNat (by omega), Block.pointer]
  omega

end Grants

def sampleArena : Arena := ⟨0x100000, 16, [Block.make 65000 0x100028, Block.make 200 0x10fe58]⟩

theorem sample_room : (⟨0x100000, 16, [Block.make 65000 0x100028]⟩ : Arena).room 200 =
    some [Block.make 65000 0x100028, Block.make 200 0x10fe58] := by
  simp [Arena.room, FirstFit.place, Block.make, Block.stop, Arena.stop, Arena.bytes]

theorem sample : ∃ c, Run Step (initial fun _ => 0#8) [.malloc 65000 0x100000#64 4, .malloc 200 0#64 7] c ∧ c.Inv [sampleArena] := by
  have inv := initial_inv fun _ => 0#8
  have allowed : (initial fun _ => 0#8).Allows (.malloc 65000 0x100000#64 4) := by
    refine ⟨by decide, fun _ => ⟨by decide, fun r member => ?_⟩, Nat.le_refl _⟩
    exact absurd member (Multiset.notMem_zero r)
  obtain ⟨c1, first⟩ := inv.progress allowed
  obtain ⟨arenas1, inv1, effect⟩ := inv.effect first
  have one : arenas1 = [⟨0x100000, 16, [Block.make 65000 0x100028]⟩] := by
    cases effect with
    | malloc malloced live =>
      obtain ⟨s1, serves, -⟩ := malloced.serves
      generalize empty : ([] : List Arena) = arenas at serves
      cases serves with
      | placed room split sized => exact absurd (congrArg List.length empty) (by simp)
      | grown full head proper =>
        subst empty
        subst head
        rfl
      | refused full head => exact absurd head (by decide)
  subst one
  have allowed1 : c1.Allows (.malloc 200 0#64 7) := ⟨by decide, fun proper => absurd rfl proper, by rw [inv1.iterations_eq]; decide⟩
  obtain ⟨c2, second⟩ := inv1.progress allowed1
  obtain ⟨arenas2, inv2, effect⟩ := inv1.effect second
  have two : arenas2 = [sampleArena] := by
    cases effect with
    | malloc malloced live =>
      obtain ⟨s1, serves, -⟩ := malloced.serves
      generalize only : ([⟨0x100000, 16, [Block.make 65000 0x100028]⟩] : List Arena) = arenas at serves
      cases serves with
      | @placed before behind a xs ys b room split sized =>
        cases before with
        | nil =>
          obtain ⟨rfl, rfl⟩ := List.cons.inj only
          have blocks := sample_room.symm.trans room
          rw [grown, List.nil_append, ← Option.some.inj blocks]
          rfl
        | cons d before => exact absurd (congrArg List.length only) (by simp)
      | grown full head proper => exact absurd head.symm proper
      | refused full head =>
        subst only
        exact absurd (full _ List.mem_cons_self) (by decide)
  subst two
  exact ⟨c2, .cons first (.cons second (.nil c2)), inv2⟩

theorem sample_live (inv : c.Inv [sampleArena]) :
    (Block.make 65000 0x100028).grant ∈ c.live ∧ (Block.make 200 0x10fe58).grant ∈ c.live := by
  rw [inv.live]
  exact ⟨List.mem_cons_self, List.mem_cons_of_mem _ List.mem_cons_self⟩

/-- In every state that the rules allow, what the callers have are aligned and separate stretches of the pages that the
    allocator has from the system, and every call that the rules allow comes back. -/
theorem grants_safe (run : Run Step (initial mem) calls c) :
    (∀ e ∈ c.live, e.pointer.toNat % 16 = 0 ∧ ∃ r ∈ c.held, r.1.toNat < e.pointer.toNat ∧
      e.pointer.toNat + e.bytes < r.1.toNat + r.2.toNat * 4096) ∧
    c.live.Nodup ∧
    (∀ e ∈ c.live, ∀ f ∈ c.live, e ≠ f →
      e.pointer.toNat + e.bytes < f.pointer.toNat ∨ f.pointer.toNat + f.bytes < e.pointer.toNat) ∧
    ∀ call, c.Allows call → ∃ c', Step c call c' := by
  obtain ⟨arenas, inv⟩ := run_inv run
  refine ⟨fun e member => ?_, ?_, fun e member f member' ne => ?_, fun call allowed => inv.progress allowed⟩
  · obtain ⟨b, listed, rfl⟩ := inv.block member
    exact ⟨inv.aligned listed, inv.pages listed⟩
  · rw [inv.live]
    apply inv.heap.good.toLaid.live_nodup.map_on
    intro b listed b' listed' same
    by_contra ne
    have apart := inv.heap.good.grants_apart listed listed' ne
    rw [same] at apart
    omega
  · obtain ⟨b, listed, rfl⟩ := inv.block member
    obtain ⟨b', listed', rfl⟩ := inv.block member'
    exact inv.heap.good.grants_apart listed listed' fun same => ne (congrArg Block.grant same)

theorem grants_safe_two : ∃ c : Client, ∃ e ∈ c.live, ∃ f ∈ c.live, e ≠ f ∧
    (e.pointer.toNat + e.bytes < f.pointer.toNat ∨ f.pointer.toNat + f.bytes < e.pointer.toNat) := by
  obtain ⟨c, run, inv⟩ := sample
  have both := sample_live inv
  have ne : (Block.make 65000 0x100028).grant ≠ (Block.make 200 0x10fe58).grant := by decide
  exact ⟨c, _, both.1, _, both.2, ne, (grants_safe run).2.2.1 _ both.1 _ both.2 ne⟩

/-- A byte of a block stays what it is until it is written or the block is given back. -/
theorem contents_kept (reached : Run Step (initial mem) calls c) (run : Run Step c calls' c') (member : e ∈ c.live)
    (own : e.Owns x) (spared : ∀ call ∈ calls', call ≠ .free e ∧ ∀ v, call ≠ .write x v) :
    e ∈ c'.live ∧ c'.heap.mem x = c.heap.mem x := by
  have kept := @Run.invariant_on Client Call Step
    (fun d => (∃ arenas, d.Inv arenas) ∧ e ∈ d.live ∧ d.heap.mem x = c.heap.mem x)
    (fun call => call ≠ .free e ∧ ∀ v, call ≠ .write x v)
  refine (kept ?_ run spared ⟨run_inv reached, member, rfl⟩).2
  rintro d call next ⟨⟨arenas, inv⟩, here, same⟩ ⟨spared, unwritten⟩ step
  obtain ⟨b, listed, rfl⟩ := inv.block here
  obtain ⟨arenas', inv', effect⟩ := inv.effect step
  exact ⟨⟨arenas', inv'⟩, effect.kept inv listed spared, (effect.frame inv listed own unwritten).trans same⟩

theorem contents_kept_freed : ∃ (c c' : Client) (e f : Grant) (x : W64), Run Step c [.free f] c' ∧ e.Owns x ∧ e ∈ c'.live ∧
    c'.heap.mem x = c.heap.mem x := by
  obtain ⟨c, run, inv⟩ := sample
  obtain ⟨first, second⟩ := sample_live inv
  have allowed : c.Allows (.free (Block.make 200 0x10fe58).grant) := second
  obtain ⟨c', step⟩ := inv.progress allowed
  have next : Run Step c [.free (Block.make 200 0x10fe58).grant] c' := .cons step (.nil c')
  have own : (Block.make 65000 0x100028).grant.Owns 0x100064#64 := by decide
  refine ⟨c, c', _, _, _, next, own, contents_kept run next first own fun call member => ?_⟩
  cases List.mem_singleton.mp member
  refine ⟨?_, fun v same => ?_⟩
  · simp [Block.grant, Block.make]
  · cases same

/-- Pages are asked for only when no major has a gap for the request. -/
theorem grows_when_full (run : Run Step (initial mem) calls c) (step : Step c (.malloc req q fuel) c') (asked : c'.heap.asked ≠ []) :
    ∃ arenas, c.Inv arenas ∧ ∀ a ∈ arenas, ∀ at', a.base + 40 ≤ at' → at' + (req + 72) ≤ a.stop →
      ∃ b ∈ a.blocks, b.addr < at' + (req + 72) ∧ at' < b.stop := by
  obtain ⟨arenas, inv⟩ := run_inv run
  obtain ⟨arenas', -, effect⟩ := inv.effect step
  refine ⟨arenas, inv, ?_⟩
  cases effect with
  | malloc malloced live =>
    obtain ⟨s1, serves, -, log, -⟩ := malloced.serves
    have meets : (∀ a ∈ arenas, a.room req = none) → ∀ a ∈ arenas, ∀ at', a.base + 40 ≤ at' → at' + (req + 72) ≤ a.stop →
        ∃ b ∈ a.blocks, b.addr < at' + (req + 72) ∧ at' < b.stop := by
      intro full a member at' low high
      exact FirstFit.place_none_meets (full a member) low high
    cases serves with
    | placed room split sized => exact absurd log asked
    | grown full head proper => exact meets full
    | refused full head => exact meets full

theorem grows_when_full_sample : ∃ (c c' : Client) (arenas : List Arena), Step c (.malloc 1000 0#64 8) c' ∧ c.Inv arenas ∧
    ∀ a ∈ arenas, ∀ at', a.base + 40 ≤ at' → at' + (1000 + 72) ≤ a.stop →
      ∃ b ∈ a.blocks, b.addr < at' + (1000 + 72) ∧ at' < b.stop := by
  obtain ⟨c, run, inv⟩ := sample
  have allowed : c.Allows (.malloc 1000 0#64 8) := ⟨by decide, fun proper => absurd rfl proper, by rw [inv.iterations_eq]; decide⟩
  obtain ⟨c', step⟩ := inv.progress allowed
  obtain ⟨arenas', -, effect⟩ := inv.effect step
  have asked : c'.heap.asked ≠ [] := by
    cases effect with
    | malloc malloced live =>
      obtain ⟨s1, serves, -, log, -⟩ := malloced.serves
      rw [log]
      have full : sampleArena.room 1000 = none := by
        simp [sampleArena, Arena.room, FirstFit.place, Block.make, Block.stop, Arena.stop, Arena.bytes]
      generalize only : [sampleArena] = arenas at serves
      cases serves with
      | @placed before behind a xs ys b room split sized =>
        have here : a ∈ [sampleArena] := by
          rw [only]
          exact List.mem_append_cons_self
        rw [List.mem_singleton.mp here, full] at room
        cases room
      | grown full head proper => exact List.cons_ne_nil _ _
      | refused full head => exact List.cons_ne_nil _ _
  obtain ⟨arenas, inv, meets⟩ := grows_when_full run step asked
  exact ⟨c, c', arenas, step, inv, meets⟩

/-- The allocator accounts for the pages it has, and keeps none once all blocks have been given back. -/
theorem pages_accounted (run : Run Step (initial mem) calls c) :
    c.heap.allocated = BitVec.ofNat 64 (c.held.map fun r => r.2.toNat * 4096).sum ∧
      (c.live = 0 → c.held = 0 ∧ c.heap.memRoot = 0#64 ∧ c.heap.bestBet = 0#64 ∧ c.heap.inuse = 0#64) := by
  obtain ⟨arenas, inv⟩ := run_inv run
  constructor
  · have sizes : arenas.map Arena.bytes = arenas.map fun a => a.grant.2.toNat * 4096 := by
      apply List.map_congr_left
      intro a member
      exact (inv.heap.good.each a member).grant_eq.2.symm
    rw [inv.heap.allocated, inv.held, holdings, Multiset.map_coe, Multiset.sum_coe, List.map_map, sizes]
    rfl
  · intro none
    have empty : arenas = [] := by
      rw [List.eq_nil_iff_forall_not_mem]
      intro a member
      apply inv.heap.good.used a member
      rw [List.eq_nil_iff_forall_not_mem]
      intro b inside
      have grant : b.grant ∈ c.live := by
        rw [inv.live]
        exact List.mem_map_of_mem (List.mem_flatMap.mpr ⟨a, member, inside⟩)
      rw [none] at grant
      exact absurd grant (Multiset.notMem_zero _)
    subst empty
    refine ⟨inv.held, inv.heap.holds.majors, ?_, inv.heap.inuse⟩
    rcases inv.heap.bet with zero | ⟨a, member, -⟩
    · exact zero
    · cases member

theorem pages_accounted_freed : ∃ (e f : Grant) (c c' : Client), Run Step c [.free e, .free f] c' ∧
    c.heap.allocated = BitVec.ofNat 64 (c.held.map fun r => r.2.toNat * 4096).sum ∧ c'.held = 0 := by
  obtain ⟨c, run, inv⟩ := sample
  obtain ⟨first, second⟩ := sample_live inv
  have allowed : c.Allows (.free (Block.make 65000 0x100028).grant) := first
  obtain ⟨b, -, -, s, arenas1, done, -⟩ := inv.free allowed
  have step := Step.free allowed done
  obtain ⟨arenas1, inv1, -⟩ := inv.effect step
  have ne : (Block.make 200 0x10fe58).grant ≠ (Block.make 65000 0x100028).grant := by decide
  have allowed1 : (c.settle 0#64 s (c.live.erase (Block.make 65000 0x100028).grant)).Allows
      (.free (Block.make 200 0x10fe58).grant) := (Multiset.mem_erase_of_ne ne).mpr second
  obtain ⟨b1, -, -, s1, arenas2, done1, -⟩ := inv1.free allowed1
  have frees := Run.cons step (.cons (Step.free allowed1 done1) (.nil _))
  have none : (c.live.erase (Block.make 65000 0x100028).grant).erase (Block.make 200 0x10fe58).grant = 0 := by
    rw [inv.live]
    decide
  exact ⟨_, _, c, _, frees, (pages_accounted run).1, ((pages_accounted (run.append frees)).2 none).1⟩

/-- A second `free` does nothing as long as the pages are there. -/
theorem free_again (run : Run Step (initial mem) calls c) (step : Step c (.free e) c') (kept : c'.heap.returned = []) :
    free e.pointer c'.heap = some ((), c'.heap) := by
  obtain ⟨arenas, inv⟩ := run_inv run
  obtain ⟨arenas', inv', effect⟩ := inv.effect step
  cases effect with
  | @free b member freed live =>
    obtain ⟨a, listed, inside, low, high, stop, fits⟩ := inv.heap.good.live_bounds member
    exact free_dead inv'.heap.unlocked (freed.dead kept) (by omega) (by omega)

theorem free_again_sample : ∃ (e : Grant) (c c' : Client), Step c (.free e) c' ∧ free e.pointer c'.heap = some ((), c'.heap) := by
  obtain ⟨c, run, inv⟩ := sample
  have allowed : c.Allows (.free (Block.make 200 0x10fe58).grant) := (sample_live inv).2
  obtain ⟨b, member, grant, s, arenas', done, freed⟩ := inv.free allowed
  have step := Step.free allowed done
  have kept : s.returned = [] := by
    obtain ⟨s1, frees, -, -, log⟩ := freed.frees
    rw [log]
    generalize only : [sampleArena] = arenas at frees
    cases frees with
    | kept split more => rfl
    | @dropped before behind a single =>
      have here : a ∈ [sampleArena] := by
        rw [only]
        exact List.mem_append_cons_self
      rw [List.mem_singleton.mp here] at single
      exact absurd (congrArg List.length single) (by simp [sampleArena])
  exact ⟨_, c, _, step, free_again run step kept⟩

end Neutrino.Alloc.Client
