import Mathlib.Algebra.BigOperators.Group.List.Basic
import Mathlib.Data.List.Induction
import Neutrino.Physical.Addresses

namespace Neutrino.Physical

open Library

/-- A call that returns. -/
def Taken (s : Allocator) (call : Call) (next : Allocator) : Prop := Call.step s call = some next

theorem taken_unique (s : Allocator) (call : Call) (a b : Allocator) (first : Taken s call a)
    (second : Taken s call b) : a = b :=
  Option.some.inj (first.symm.trans second)

def Allocator.liveBlocks (s : Allocator) : Nat := (s.live.map fun a => a.blocks.toNat).sum

/-- The counter is what it was after `init_pmm` and the live blocks. -/
def Allocator.Tracks (initial : W64) (s : Allocator) : Prop :=
  s.pmm.usedBlocks.toNat = initial.toNat + s.liveBlocks

/-- What the counter follows: allocations that do not take it past 64 bits. -/
def Counted (p : Pmm) : Call → Prop
  | .alloc => True
  | .allocSeries size => p.usedBlocks.toNat + size.toNat < 2 ^ 64
  | .free _ | .freeSeries _ _ => False

@[simp]
theorem setSeries_usedBlocks (block i : W32) (count : Nat) (p : Pmm) :
    (setSeries block count i p).usedBlocks = p.usedBlocks := by
  induction count generalizing i p with
  | zero => rfl
  | succ count ih => exact ih (i + 1) _

@[simp]
theorem unsetSeries_usedBlocks (block i : W32) (count : Nat) (p : Pmm) :
    (unsetSeries block count i p).usedBlocks = p.usedBlocks := by
  induction count generalizing i p with
  | zero => rfl
  | succ count ih => exact ih (i + 1) _

section Steps

variable {s next : Allocator} {addr : W64} {size : W32} {initial : W64}

theorem liveBlocks_erase (present : s.live.any (Allocation.named addr size) = true) (p : Pmm) :
    (⟨p, s.live.eraseP (Allocation.named addr size)⟩ : Allocator).liveBlocks + size.toNat = s.liveBlocks := by
  rcases List.any_eq_true.mp present with ⟨a, member, named⟩
  rcases List.exists_of_eraseP member named with ⟨found, left, right, -, isFound, whole, rest⟩
  simp only [Allocation.named, Bool.and_eq_true, beq_iff_eq] at isFound
  simp only [Allocator.liveBlocks, rest]
  simp only [whole, List.map_append, List.map_cons, List.sum_append, List.sum_cons, isFound.2]
  omega

theorem alloc_counts (taken : Taken s .alloc next) :
    next.pmm.usedBlocks.toNat = s.pmm.usedBlocks.toNat + 1 ∧ next.liveBlocks = s.liveBlocks + 1 := by
  rcases Option.map_eq_some_iff.mp taken with ⟨⟨addr, p⟩, result, rfl⟩
  have room : s.pmm.usedBlocks < s.pmm.usableBlocks := by
    by_contra full
    rw [pmmAlloc, if_pos (BitVec.not_lt.mp full)] at result
    cases result
  have below := BitVec.lt_def.mp room
  have bound := s.pmm.usableBlocks.isLt
  rcases pmmAlloc_cases result with ⟨b, -, rfl, rfl⟩
  constructor
  · simp only [pmmUpdateBlocks, pmmMapSet, BitVec.toNat_add, BitVec.toNat_setWidth, BitVec.toNat_ofNat,
      Nat.reducePow, Nat.reduceMod]
    omega
  · simp only [Allocator.liveBlocks, List.map_cons, List.sum_cons, BitVec.ofNat_eq_ofNat,
      BitVec.toNat_ofNat, Nat.reducePow, Nat.reduceMod]
    omega

theorem allocSeries_counts (taken : Taken s (.allocSeries size) next) :
    size ≠ 0 ∧ next.pmm.usedBlocks = s.pmm.usedBlocks + size.setWidth 64 ∧
      next.liveBlocks = s.liveBlocks + size.toNat := by
  simp only [Taken, Call.step] at taken
  split at taken
  · cases taken
  · rename_i nonzero
    rcases Option.map_eq_some_iff.mp taken with ⟨⟨addr, p⟩, result, rfl⟩
    rcases pmmAllocSeries_cases nonzero result with ⟨b, -, rfl, rfl⟩
    refine ⟨nonzero, by simp [pmmUpdateBlocks], ?_⟩
    simp only [Allocator.liveBlocks, List.map_cons, List.sum_cons]
    omega

theorem free_counts (taken : Taken s (.free addr) next) :
    next.pmm.usedBlocks = s.pmm.usedBlocks + 0xffffffff#64 ∧ next.liveBlocks + 1 = s.liveBlocks := by
  simp only [Taken, Call.step] at taken
  split at taken
  · rename_i present
    cases taken
    exact ⟨rfl, liveBlocks_erase present _⟩
  · cases taken

theorem freeSeries_counts (taken : Taken s (.freeSeries addr size) next) :
    (∃ a ∈ s.live, a.blocks = size) ∧ next.pmm.usedBlocks = s.pmm.usedBlocks + (-size).setWidth 64 ∧
      next.liveBlocks + size.toNat = s.liveBlocks := by
  simp only [Taken, Call.step] at taken
  split at taken
  · rename_i present
    cases taken
    refine ⟨?_, by simp [pmmFreeSeries, pmmUpdateBlocks], liveBlocks_erase present _⟩
    rcases List.any_eq_true.mp present with ⟨a, member, named⟩
    simp only [Allocation.named, Bool.and_eq_true, beq_iff_eq] at named
    exact ⟨a, member, named.2⟩
  · cases taken

/-- No live allocation is one of no blocks. -/
def Allocator.Solid (s : Allocator) : Prop := ∀ a ∈ s.live, a.blocks ≠ 0

theorem Allocator.Solid.step {call : Call} (solid : s.Solid) (taken : Taken s call next) : next.Solid := by
  cases call with
  | alloc =>
    rcases Option.map_eq_some_iff.mp taken with ⟨⟨addr, p⟩, -, rfl⟩
    intro a member
    rcases List.mem_cons.mp member with rfl | member
    · exact (by decide : (1 : W32) ≠ 0)
    · exact solid a member
  | allocSeries size =>
    have nonzero := (allocSeries_counts taken).1
    simp only [Taken, Call.step, if_neg nonzero] at taken
    rcases Option.map_eq_some_iff.mp taken with ⟨⟨addr, p⟩, -, rfl⟩
    intro a member
    rcases List.mem_cons.mp member with rfl | member
    · exact nonzero
    · exact solid a member
  | free addr =>
    simp only [Taken, Call.step] at taken
    split at taken
    · cases taken
      exact fun a member => solid a (List.mem_of_mem_eraseP member)
    · cases taken
  | freeSeries addr size =>
    simp only [Taken, Call.step] at taken
    split at taken
    · cases taken
      exact fun a member => solid a (List.mem_of_mem_eraseP member)
    · cases taken

theorem step_tracks_iff {call : Call} (solid : s.Solid) (tracks : s.Tracks initial)
    (taken : Taken s call next) : next.Tracks initial ↔ Counted s.pmm call := by
  simp only [Allocator.Tracks] at tracks ⊢
  cases call with
  | alloc =>
    have counts := alloc_counts taken
    simp only [Counted, iff_true]
    omega
  | allocSeries size =>
    rcases allocSeries_counts taken with ⟨-, used, live⟩
    have narrow := size.isLt
    rw [used, live, Counted, BitVec.toNat_add, BitVec.toNat_setWidth]
    omega
  | free addr =>
    rcases free_counts taken with ⟨used, live⟩
    have bound := s.pmm.usedBlocks.isLt
    rw [used, BitVec.toNat_add, BitVec.toNat_ofNat]
    simp only [Counted, iff_false]
    omega
  | freeSeries addr size =>
    rcases freeSeries_counts taken with ⟨⟨a, member, sized⟩, used, live⟩
    have nonzero : size.toNat ≠ 0 := fun zero => solid a member (sized.trans (BitVec.eq_of_toNat_eq zero))
    have narrow := size.isLt
    have bound := s.pmm.usedBlocks.isLt
    rw [used, BitVec.toNat_add, BitVec.toNat_setWidth, BitVec.toNat_neg]
    simp only [Counted, iff_false]
    omega

end Steps

theorem used_blocks_tracked_iff (entries : List MemoryPhysicalRegion) (prior : WordBitmap 32)
    (calls : List Call) (s : Allocator) (run : Run Taken (boot entries prior) calls s) :
    (∀ before mid, before <+: calls → Run Taken (boot entries prior) before mid →
      mid.Tracks (initPmm entries prior).usedBlocks) ↔
    ∀ before call mid, before ++ [call] <+: calls → Run Taken (boot entries prior) before mid →
      Counted mid.pmm call := by
  have solid : ∀ {before mid}, Run Taken (boot entries prior) before mid → mid.Solid := fun reached =>
    reached.invariant (fun _ _ _ solid taken => solid.step taken) (fun _ member => absurd member List.not_mem_nil)
  constructor
  · rintro tracks before call mid ⟨after, whole⟩ reached
    rw [← whole, List.append_assoc] at run
    rcases run.split with ⟨mid', reached', rest⟩
    cases reached.unique taken_unique reached'
    cases rest with
    | cons taken rest =>
      have earlier : before <+: calls := ⟨[call] ++ after, by rw [← List.append_assoc]; exact whole⟩
      exact (step_tracks_iff (solid reached) (tracks before mid earlier reached) taken).mp
        (tracks _ _ ⟨after, whole⟩ (reached.snoc taken))
  · intro counted before
    -- from one prefix to the next
    induction before using List.reverseRecOn with
    | nil =>
      intro mid _ reached
      cases reached
      exact rfl
    | append_singleton before call ih =>
      intro mid inside reached
      rcases reached.split with ⟨mid', reached', rest⟩
      cases rest with
      | cons taken rest =>
        cases rest
        have earlier : before <+: calls := (List.prefix_append before [call]).trans inside
        exact (step_tracks_iff (solid reached') (ih mid' earlier reached') taken).mpr
          (counted before call mid' inside reached')

theorem used_blocks_tracked_one :
    ∃ s, Run Taken (boot twoUsableRegions fun _ => 0) [.alloc] s ∧
      s.Tracks (initPmm twoUsableRegions fun _ => 0).usedBlocks := by
  have result : (Call.step (boot twoUsableRegions fun _ => 0) .alloc).isSome = true := by
    rw [Call.step, Option.isSome_map]
    exact two_regions_boot.2.2.2.2.1
  rcases Option.isSome_iff_exists.mp result with ⟨s, taken⟩
  have run : Run Taken (boot twoUsableRegions fun _ => 0) [.alloc] s := .cons taken (.nil s)
  refine ⟨s, run, (used_blocks_tracked_iff _ _ _ s run).mpr ?_ [.alloc] s List.prefix_rfl run⟩
  rintro before call mid ⟨after, whole⟩ -
  have first : before = [] ∧ call = .alloc := by
    cases before with
    | nil => simpa using (List.cons.inj whole).1
    | cons head before => simp at whole
  rw [first.2]
  trivial

theorem used_blocks_not_restored :
    ∃ s, Run Taken (boot twoUsableRegions fun _ => 0) [.alloc, .free 0x1000] s ∧ s.live.length = 0 ∧
      ¬ s.Tracks (initPmm twoUsableRegions fun _ => 0).usedBlocks := by
  have result : ([.alloc, .free 0x1000].foldlM Call.step (boot twoUsableRegions fun _ => 0)).map
      (fun s => (s.live.length, s.pmm.usedBlocks)) = some (0, 0x100000000) := by decide +kernel
  rcases Option.map_eq_some_iff.mp result with ⟨s, taken, facts⟩
  rcases Prod.mk.inj facts with ⟨none, used⟩
  refine ⟨s, Run.of_foldlM taken, none, fun tracks => ?_⟩
  have start : (initPmm twoUsableRegions fun _ => 0).usedBlocks = 0 := two_regions_boot.1.2.2.2.1
  rw [Allocator.Tracks, used, start, Allocator.liveBlocks, List.length_eq_zero_iff.mp none] at tracks
  exact absurd tracks (by decide)

/-- Clear blocks in a row, in the range that the searches scan. -/
def FreeRun (p : Pmm) (n : Nat) : Prop := ∃ b, b + n ≤ p.scanned ∧ ∀ k < n, p.used (b + k) = false

section Reports

variable {p : Pmm} {size : W32}

end Reports

end Neutrino.Physical
