import Mathlib.Data.Nat.Find
import Neutrino.Virtual.HeapSearch
import Neutrino.Virtual.Series

namespace Neutrino.Virtual

open Library

-- The pages of a slot of the PML4, counted from where the slot begins.

def slotPath (slot : Index) (k : Nat) : PagingPath :=
  ⟨slot, BitVec.ofNat 9 (k / 2 ^ 18), BitVec.ofNat 9 (k / 2 ^ 9), BitVec.ofNat 9 k⟩

def slotPage (slot : Index) (k : Nat) : W64 := getAddress (slotPath slot k) 0#64

section Addresses

variable {slot : Index} {i k n : Nat}

theorem directories_slotPage : directories (slotPage slot k) =
    [slot, BitVec.ofNat 9 (k / 2 ^ 18), BitVec.ofNat 9 (k / 2 ^ 9)] := by
  have path := getPagingPath_getAddress (slotPath slot k)
  injection path with pl4 dpt pd pt
  rw [directories, slotPage, pl4, dpt, pd]

theorem getPl4Index_slotPage : getPl4Index (slotPage slot k) = slot :=
  congrArg PagingPath.pl4 (getPagingPath_getAddress (slotPath slot k))

theorem getTabIndex_slotPage : getTabIndex (slotPage slot k) = BitVec.ofNat 9 k :=
  congrArg PagingPath.pt (getPagingPath_getAddress (slotPath slot k))

theorem slotPage_toNat (inside : k < 2 ^ 27) : (slotPage slot k).toNat =
    (if slot.toNat < 256 then 0 else 2 ^ 64 - 2 ^ 48) + slot.toNat * 2 ^ 39 + k * 2 ^ 12 := by
  have offset : ((slot.toNat * 2 ^ 9 + k / 2 ^ 18 % 2 ^ 9) * 2 ^ 9 + k / 2 ^ 9 % 2 ^ 9) * 2 ^ 21 +
      k % 2 ^ 9 * 2 ^ 12 = slot.toNat * 2 ^ 39 + k * 2 ^ 12 := by
    omega
  have first : (slotPath slot k).pl4 = slot := rfl
  rw [slotPage, getAddress_toNat, first, Nat.add_assoc, ← offset]
  simp only [slotPath, BitVec.toNat_ofNat]

theorem pageAt_slotPage (inside : k + i < 2 ^ 27) : pageAt (slotPage slot k) i = slotPage slot (k + i) := by
  have bound := slot.isLt
  apply BitVec.eq_of_toNat_eq
  rw [pageAt, BitVec.toNat_add, BitVec.toNat_ofNat, slotPage_toNat (by omega), slotPage_toNat inside, pageSize]
  split <;> omega

theorem pageNumber_slotPage (inside : k < 2 ^ 27) : (pageNumber (slotPage slot k)).toNat =
    (if slot.toNat < 256 then 0 else 2 ^ 52 - 2 ^ 36) + slot.toNat * 2 ^ 27 + k := by
  rw [pageNumber_toNat, slotPage_toNat inside]
  split <;> omega

theorem canonical_slotPage (inside : k < 2 ^ 27) : canonical (pageNumber (slotPage slot k)) = true := by
  have bound := slot.isLt
  rw [canonical_iff, pageNumber_slotPage inside]
  split <;> omega

theorem slotPage_injective (inside : k < 2 ^ 27) (inside' : n < 2 ^ 27)
    (same : pageNumber (slotPage slot k) = pageNumber (slotPage slot n)) : k = n := by
  have numbers := congrArg BitVec.toNat same
  rw [pageNumber_slotPage inside, pageNumber_slotPage inside'] at numbers
  omega

theorem entryAddress_slotPage (inside : k < 2 ^ 27) :
    entryAddress (window recurseActive [slot, 0#9, 0#9]) (BitVec.ofNat 64 k) =
      entryAddress (window recurseActive (directories (slotPage slot k)))
        ((getTabIndex (slotPage slot k)).setWidth 64) := by
  have bound := slot.isLt
  have active : recurseActive.toNat = 510 := rfl
  have eight : (8#64).toNat = 8 := rfl
  rw [directories_slotPage, getTabIndex_slotPage]
  apply BitVec.eq_of_toNat_eq
  rw [entryAddress_toNat (window_aligned_page _ _), entryAddress, BitVec.toNat_add, BitVec.toNat_mul, eight]
  simp only [window, tableAddress_toNat, BitVec.toNat_ofNat, active]
  omega

end Addresses

/-- The page table with the entry for the page `k` of the slot is there. -/
structure Listed (mem : Mem) (root : Frame) (slot : Index) (k : Nat) : Prop where
  inside : k < 2 ^ 27
  table : ∃ g, follow branches mem 3 root (directories (slotPage slot k)) = some g

/-- There is an entry for the page `k` of the slot that `vmm_get_entry` finds. -/
def Found (c : Core) (slot : Index) (k : Nat) : Prop :=
  ∃ g, follow branches c.mem 3 c.cr3 (directories (slotPage slot k)) = some g ∧
    isEntry (c.mem g (getTabIndex (slotPage slot k))) = true

section Reads

variable {m : Machine} {slot : Index} {k pt page size : Nat} (gate : Gate m.core recurseActive m.core.cr3)
include gate

theorem vmmGetEntry_slotPage (listed : Listed m.core.mem m.core.cr3 slot k) :
    Yields m (vmmGetEntry (window recurseActive [slot, 0#9, 0#9]) (BitVec.ofNat 64 k)) fun a m' =>
      (a = 0#64 ↔ ¬ Found m.core slot k) ∧ m'.core = m.core := by
  obtain ⟨g, place⟩ := listed.table
  have here : Found m.core slot k ↔ isEntry (m.core.mem g (getTabIndex (slotPage slot k))) = true := by
    constructor
    · rintro ⟨g', place', entry⟩
      cases place.symm.trans place'
      exact entry
    · intro entry
      exact ⟨g, place, entry⟩
  rw [vmmGetEntry_congr (entryAddress_slotPage listed.inside)]
  refine (vmmGetEntry_window gate place (List.prefix_refl _) (by simp [directories]) _).mono ?_
  rintro a m' ⟨found, core, -⟩
  exact ⟨by rw [here, ← found, not_not], core⟩

theorem vmmGetEntry_shifted (listed : Listed m.core.mem m.core.cr3 slot (pt + page)) :
    Yields m (vmmGetEntry (getRecursiveAddress recurseActive slot 0#9 0#9 (BitVec.ofNat 64 pt)) (BitVec.ofNat 64 page))
      fun a m' => (a = 0#64 ↔ ¬ Found m.core slot (pt + page)) ∧ m'.core = m.core := by
  rw [getRecursiveAddress, vmmGetEntry_congr (entryAddress_twice _ pt page)]
  exact vmmGetEntry_slotPage gate listed

theorem entriesFree_shifted {more : List Nat} (listed : ∀ j ∈ more, Listed m.core.mem m.core.cr3 slot (pt + (page + j))) :
    Yields m (entriesFree (getRecursiveAddress recurseActive slot 0#9 0#9 (BitVec.ofNat 64 pt)) page more)
      fun free m' => (free = true ↔ ∀ j ∈ more, ¬ Found m.core slot (pt + (page + j))) ∧ m'.core = m.core := by
  induction more generalizing m with
  | nil => exact .pure ⟨by simp, rfl⟩
  | cons j more ih =>
    refine (vmmGetEntry_shifted gate (listed j List.mem_cons_self)).bind ?_
    rintro a m1 ⟨first, core⟩
    rw [← core] at gate listed ⊢
    refine (ih gate fun j' member => listed j' (List.mem_cons_of_mem j member)).bind ?_
    rintro free m2 ⟨others, core'⟩
    refine .pure ⟨?_, core'⟩
    rw [Bool.and_eq_true, decide_eq_true_iff, first, others, List.forall_mem_cons, core]

theorem tryPage_shifted (some : 1 ≤ size) (here : Listed m.core.mem m.core.cr3 slot (pt + page))
    (ahead : ¬ Found m.core slot (pt + page) → ∀ j < size, Listed m.core.mem m.core.cr3 slot (pt + (page + j))) :
    Yields m (tryPage slot size 0 0 pt page) fun answer m' => m'.core = m.core ∧
      (answer = none ∧ (∃ j < size, Found m.core slot (pt + (page + j))) ∨
        answer = .some (getAddress ⟨slot, 0#9, BitVec.ofNat 9 pt, BitVec.ofNat 9 page⟩ 0#64) ∧
          ∀ j < size, ¬ Found m.core slot (pt + (page + j))) := by
  refine (vmmGetEntry_shifted gate here).bind ?_
  rintro a m1 ⟨first, core⟩
  split
  · rename_i entry
    have found : Found m.core slot (pt + page) := by
      by_contra missing
      exact entry (first.mpr missing)
    exact .pure ⟨core, .inl ⟨rfl, 0, some, found⟩⟩
  · rename_i absent
    rw [not_not] at absent
    rw [← core] at gate ahead first ⊢
    refine (entriesFree_shifted gate fun j member =>
      ahead (first.mp absent) j (List.mem_range.mp member)).bind ?_
    rintro free m2 ⟨rest, core'⟩
    simp only [List.mem_range] at rest
    split
    · rename_i all
      exact .pure ⟨core', .inr ⟨rfl, rest.mp all⟩⟩
    · rename_i bad
      rw [rest] at bad
      simp only [not_forall, not_not, exists_prop] at bad
      exact .pure ⟨core', .inl ⟨rfl, bad⟩⟩

theorem tryPage_found (some : 1 ≤ size) (here : Listed m.core.mem m.core.cr3 slot (pt + page))
    (found : Found m.core slot (pt + page)) :
    Yields m (tryPage slot size 0 0 pt page) fun answer m' => answer = none ∧ m'.core = m.core := by
  refine (tryPage_shifted gate some here (absurd found)).mono ?_
  rintro answer m' ⟨core, ⟨nothing, -⟩ | ⟨-, all⟩⟩
  · exact ⟨nothing, core⟩
  · exact absurd found (all 0 some)

end Reads

section Runs

variable {c c' : Core} {slot : Index} {k n : Nat}

theorem found_iff (bounded : Bounded c.mem c.cr3) (outside : slot ≠ recurseActive) (listed : Listed c.mem c.cr3 slot k) :
    Found c slot k ↔ walk c.mem c.cr3 (pageNumber (slotPage slot k)) ≠ none := by
  have off : getPl4Index (slotPage slot k) ≠ recurseActive := by
    rw [getPl4Index_slotPage]
    exact outside
  constructor
  · rintro ⟨g, place, entry⟩
    have present := (Bool.and_eq_true_iff.mp entry).1
    obtain ⟨above, shown⟩ := walk_present (canonical_slotPage listed.inside) off place present
    rw [shown]
    exact Option.some_ne_none _
  · intro mapped
    obtain ⟨g, place⟩ := listed.table
    have present : isPresent (c.mem g (getTabIndex (slotPage slot k))) = true := by
      by_contra absent
      exact mapped (walk_absent off place (by simpa using absent))
    have low := bounded g (getTabIndex (slotPage slot k)) ⟨_, place⟩ present
    refine ⟨g, place, Bool.and_eq_true_iff.mpr ⟨present, ?_⟩⟩
    exact bne_iff_ne.mpr (getMemAddress_ne (by omega))

/-- A run of unmapped pages that begins with a page of the slot's first page table. Where it goes
    past that table, there are tables. -/
def HeapRoom (c : Core) (slot : Index) (n : Nat) : Prop :=
  ∃ first < 512, first + n ≤ 2 ^ 27 ∧ ∀ i < n, walk c.mem c.cr3 (pageNumber (slotPage slot (first + i))) = none ∧
    (512 ≤ first + i → Listed c.mem c.cr3 slot (first + i))

theorem walk_grows (space : Space c c.cr3) (grows : Grows c.cr3 c c') {q : PageNumber}
    (outside : slotOf q ≠ recurseActive) : walk c'.mem c.cr3 q = walk c.mem c.cr3 q :=
  walk_congr outside fun _ => grows.lookup_eq space space space.tree.aligned (indices_length q)

theorem Listed.grows (listed : Listed c.mem c.cr3 slot k) (space : Space c c.cr3) (grows : Grows c.cr3 c c') :
    Listed c'.mem c'.cr3 slot k := by
  obtain ⟨g, place⟩ := listed.table
  refine ⟨listed.inside, g, ?_⟩
  rw [grows.other.1]
  exact grows.follow_eq space space place

theorem HeapRoom.grows (room : HeapRoom c slot n) (space : Space c c.cr3) (outside : slot ≠ recurseActive)
    (grows : Grows c.cr3 c c') : HeapRoom c' slot n := by
  obtain ⟨first, small, fits, pages⟩ := room
  refine ⟨first, small, fits, fun i below => ?_⟩
  obtain ⟨free, listed⟩ := pages i below
  refine ⟨?_, fun past => (listed past).grows space grows⟩
  have off : slotOf (pageNumber (slotPage slot (first + i))) ≠ recurseActive := by
    rw [slotOf_pageNumber, getPl4Index_slotPage]
    exact outside
  rw [grows.other.1, walk_grows space grows off]
  exact free

theorem range_split {q n : Nat} (below : q < n) : ∃ rest, List.range n = List.range q ++ q :: rest := by
  obtain ⟨r, rfl⟩ := Nat.exists_eq_add_of_lt below
  refine ⟨(List.range r).map (q + 1 + ·), ?_⟩
  rw [Nat.add_right_comm, List.range_add, List.range_succ, List.append_assoc]
  rfl

end Runs

section Pages

variable {m : Machine} {slot : Index} {g : Frame} {size : Nat}

theorem tryPages_yields (gate : Gate m.core recurseActive m.core.cr3) (bounded : Bounded m.core.mem m.core.cr3)
    (outside : slot ≠ recurseActive) (some : 1 ≤ size)
    (table : follow branches m.core.mem 3 m.core.cr3 [slot, 0#9, 0#9] = .some g) (room : HeapRoom m.core slot size) :
    Yields m ((List.range 512).findSomeM? (tryPage slot size 0 0 0)) fun answer m' => m'.core = m.core ∧
      ∃ q, q + size ≤ 2 ^ 27 ∧ answer = .some (slotPage slot q) ∧
        ∀ i < size, walk m.core.mem m.core.cr3 (pageNumber (slotPage slot (q + i))) = none := by
  obtain ⟨p, small, fits, pages⟩ := room
  have listed : ∀ k < p + size, Listed m.core.mem m.core.cr3 slot k := by
    intro k below
    by_cases near : k < 512
    · refine ⟨by omega, g, ?_⟩
      rw [directories_slotPage, Nat.div_eq_of_lt (by omega), Nat.div_eq_of_lt (by omega)]
      exact table
    · obtain ⟨i, rfl⟩ := Nat.exists_eq_add_of_le (by omega : p ≤ k)
      exact (pages i (by omega)).2 (by omega)
  classical
  have exist : ∃ q, ∀ i < size, walk m.core.mem m.core.cr3 (pageNumber (slotPage slot (q + i))) = none :=
    ⟨p, fun i below => (pages i below).1⟩
  obtain ⟨q, free, least⟩ : ∃ q, (∀ i < size, walk m.core.mem m.core.cr3 (pageNumber (slotPage slot (q + i))) = none) ∧
      ∀ k < q, ¬ ∀ i < size, walk m.core.mem m.core.cr3 (pageNumber (slotPage slot (k + i))) = none :=
    ⟨Nat.find exist, Nat.find_spec exist, fun k below => Nat.find_min exist below⟩
  have early : q ≤ p := by
    by_contra late
    exact least p (by omega) fun i below => (pages i below).1
  -- what the code finds at a page up to the first that begins a free run
  have attempt : ∀ page ≤ q, ∀ n : Machine, n.core = m.core →
      Yields n (tryPage slot size 0 0 0 page) fun answer n' => n'.core = m.core ∧
        (answer = none ∧ (∃ j < size, walk m.core.mem m.core.cr3 (pageNumber (slotPage slot (page + j))) ≠ none) ∨
          answer = .some (getAddress ⟨slot, 0#9, 0#9, BitVec.ofNat 9 page⟩ 0#64) ∧
            ∀ j < size, walk m.core.mem m.core.cr3 (pageNumber (slotPage slot (page + j))) = none) := by
    intro page upto n core
    have there : ∀ j < size, Listed n.core.mem n.core.cr3 slot (0 + (page + j)) := by
      intro j below
      rw [core, Nat.zero_add]
      exact listed _ (by omega)
    have gate' := gate
    rw [← core] at gate'
    refine (tryPage_shifted gate' some (there 0 some) fun _ => there).mono ?_
    rintro answer n' ⟨core', either⟩
    refine ⟨core'.trans core, ?_⟩
    rw [core] at either
    refine either.imp (And.imp_right ?_) (And.imp_right ?_)
    · rintro ⟨j, below, found⟩
      rw [Nat.zero_add, found_iff bounded outside (listed _ (by omega))] at found
      exact ⟨j, below, found⟩
    · intro missing j below
      have absent := missing j below
      rw [Nat.zero_add, found_iff bounded outside (listed _ (by omega)), not_not] at absent
      exact absent
  obtain ⟨rest, split⟩ := range_split (by omega : q < 512)
  rw [split]
  refine Yields.findSomeM (fun n => n.core = m.core) (fun page member n core => ?_) (fun n core => ?_) rfl
  · have before := List.mem_range.mp member
    refine (attempt page (by omega) n core).mono ?_
    rintro answer n' ⟨core', ⟨rfl, -⟩ | ⟨-, all⟩⟩
    · exact ⟨rfl, core'⟩
    · exact absurd all (least page before)
  · refine (attempt q (Nat.le_refl q) n core).mono ?_
    rintro answer n' ⟨core', ⟨-, j, below, mapped⟩ | ⟨rfl, -⟩⟩
    · exact absurd (free j below) mapped
    · have path : slotPath slot q = ⟨slot, 0#9, 0#9, BitVec.ofNat 9 q⟩ := by
        rw [slotPath, Nat.div_eq_of_lt (by omega), Nat.div_eq_of_lt (by omega)]
      refine ⟨Option.some_ne_none _, core', q, by omega, ?_, free⟩
      rw [slotPage, path]

end Pages

section Levels

variable {m : Machine} {roots ram : Set Frame} {mirror f g : Frame} {xs : List Index} {i : Index} {c' : Core}
  {table entry heapBase : W64} {prop : PageProperties} {size : Nat} (family : Family m.core roots ram mirror)
  (tidy : Tidy m.core)
include family tidy

theorem Family.ensureEntry_simulates (place : follow branches m.core.mem 3 m.core.cr3 xs = some g)
    (high : xs.length ≤ 2) (head : xs.head? ≠ some permSlot)
    (same : entryAddress table entry = entryAddress (window recurseActive xs) (i.setWidth 64)) :
    Simulates Machine.core m (ensureEntry table entry prop) (ensure prop g i) fun _ _ _ => True := by
  rw [ensureEntry, vmmGetEntry_congr same, vmmCreateEntry_congr same]
  obtain ⟨a, m1, read, found, core, -⟩ :=
    vmmGetEntry_window family.gate_active place (List.prefix_refl xs) (by omega) i
  refine .after read core ?_
  rw [← core] at family tidy place found
  cases present : isPresent (m1.core.mem g i) with
  | true =>
    have shown := (tidy xs g i place high head present).2
    have skipped : ensure prop g i m1.core = some (frameOf (m1.core.mem g i), m1.core) := by
      rw [ensure, if_pos present]
    rw [if_neg (found.mpr shown)]
    exact Simulates.congr (.of_yields (.pure ⟨rfl, trivial⟩)) skipped
  | false =>
    have missing : a = 0#64 := by
      by_contra other
      have entry := found.mp other
      rw [isEntry, present] at entry
      cases entry
    have made : ensure prop g i m1.core = create prop g i m1.core := by
      rw [ensure, if_neg (by rw [present]; decide)]
    rw [if_pos missing]
    refine Simulates.congr (.discard ?_) made
    refine (vmmCreateEntry_simulates (reaches_window family.gate_active place) family.backed present prop).mono ?_
    intro _ _ _ _ _
    trivial

theorem Family.ensured (place : follow branches m.core.mem 3 m.core.cr3 xs = some g) (high : xs.length ≤ 2)
    (head : ∀ j rest, xs ++ [i] = j :: rest → j ≠ recurseActive ∧ j ≠ permSlot)
    (taken : ensure prop g i m.core = some (f, c')) :
    Grows m.core.cr3 m.core c' ∧ Family c' roots ram mirror ∧ Tidy c' ∧ c'.cr3 = m.core.cr3 ∧
      follow branches c'.mem 3 c'.cr3 (xs ++ [i]) = some f := by
  have short : xs.length + [i].length ≤ 3 := Nat.add_le_add_right high 1
  have way : Way m.core.mem m.core.cr3 xs g [i] :=
    ⟨place, short, fun j rest split => (head j rest split).1, tidy.plain_below place short head⟩
  obtain ⟨grows, -, next⟩ := way.ensure (family.space family.active) taken
  have edits := grows.edits
  refine ⟨grows, family.edits family.active edits, family.edits_tidy family.active edits tidy, edits.cr3, ?_⟩
  rw [edits.cr3]
  exact next.place

end Levels

theorem entryAddress_zero (base : W64) : entryAddress base 0#64 = base := by simp [entryAddress]

/-- What the search returns: the address of a run of unmapped pages of the slot. -/
def FreeRun (c : Core) (slot : Index) (size : Nat) (va : W64) : Prop :=
  ∃ q, q + size ≤ 2 ^ 27 ∧ va = slotPage slot q ∧
    ∀ i < size, walk c.mem c.cr3 (pageNumber (slotPage slot (q + i))) = none

section Search

variable {m : Machine} {roots ram : Set Frame} {mirror : Frame} {slot : Index} {heapBase : W64} {size : Nat}

theorem FreeRun.of_grows {c c' : Core} {va : W64} (run : FreeRun c' slot size va) (space : Space c c.cr3)
    (outside : slot ≠ recurseActive) (grows : Grows c.cr3 c c') : FreeRun c slot size va := by
  obtain ⟨q, fits, address, free⟩ := run
  refine ⟨q, fits, address, fun i below => ?_⟩
  have off : slotOf (pageNumber (slotPage slot (q + i))) ≠ recurseActive := by
    rw [slotOf_pageNumber, getPl4Index_slotPage]
    exact outside
  rw [← walk_grows space grows off, ← grows.other.1]
  exact free i below

theorem Family.vmmFindFreeHeapSeries_simulates (family : Family m.core roots ram mirror) (tidy : Tidy m.core)
    (bounded : Bounded m.core.mem m.core.cr3) (base : heapBase = heapOffset ∨ heapBase = userHeapOffset)
    (some : 1 ≤ size) (room : HeapRoom m.core (getPl4Index heapBase) size) (prop : PageProperties) :
    Simulates Machine.core m (vmmFindFreeHeapSeries size heapBase prop)
      (descend prop m.core.cr3 [getPl4Index heapBase, 0#9, 0#9]) fun va _ m' =>
        Grows m.core.cr3 m.core m'.core ∧ FreeRun m.core (getPl4Index heapBase) size va := by
  have inner := (heapSlot_base base).inner.1
  rw [vmmFindFreeHeapSeries_eq]
  generalize getPl4Index heapBase = slot at *
  have start : (List.range 512).head? = .some 0 := List.head?_range
  have head : ∀ (xs : List Index) j rest, slot :: xs = j :: rest → j ≠ recurseActive ∧ j ≠ permSlot := by
    rintro xs j rest ⟨⟩
    exact inner
  have other : ∀ xs : List Index, (slot :: xs).head? ≠ .some permSlot := by
    rintro xs ⟨⟩
    exact inner.2 rfl
  have search : Simulates Machine.core m ((List.range 512).findSomeM? (tryPointers slot prop size))
      (descend prop m.core.cr3 [slot, 0#9, 0#9]) fun answer _ m' =>
        Grows m.core.cr3 m.core m'.core ∧ ∃ va, answer = .some va ∧ FreeRun m.core slot size va := by
    have origin : follow branches m.core.mem 3 m.core.cr3 [] = .some m.core.cr3 := rfl
    refine .findSomeM_head start (.bind (family.ensureEntry_simulates tidy origin (by simp) (by simp) ?_) ?_)
    · rw [entryAddress_zero]
      rfl
    intro _ t1 m1 first _
    obtain ⟨grows1, family1, tidy1, root1, place1⟩ := family.ensured tidy origin (by simp) (head []) first
    refine .findSomeM_head start (.bind (family1.ensureEntry_simulates tidy1 place1 (by simp) (other []) ?_) ?_)
    · rw [entryAddress_zero, getRecursiveAddress_zero]
      exact (entryAddress_zero _).symm
    intro _ t2 m2 second _
    obtain ⟨grows2, family2, tidy2, root2, place2⟩ := family1.ensured tidy1 place1 (by simp) (head _) second
    replace place2 : follow branches m2.core.mem 3 m2.core.cr3 [slot, 0#9] = .some t2 := place2
    have last : entryAddress (getRecursiveAddress recurseActive recurseActive slot 0#9 0#64) 0#64 =
        entryAddress (window recurseActive [slot, 0#9]) ((0#9).setWidth 64) := by
      rw [entryAddress_zero, getRecursiveAddress_zero]
      exact (entryAddress_zero _).symm
    have third := ensure_simulates (i := 0#9) family2.gate_active family2.backed place2 (List.prefix_refl _) (by simp) prop
    rw [← vmmGetOrCreateEntry_congr last] at third
    refine .findSomeM_head start (.bind (.discard third) ?_)
    intro _ t3 m3 made _
    obtain ⟨grows3, family3, tidy3, root3, place3⟩ := family2.ensured tidy2 place2 (by simp) (head _) made
    have grows : Grows m.core.cr3 m.core m3.core := by
      rw [root1] at grows2
      rw [root2, root1] at grows3
      exact (grows1.trans grows2).trans grows3
    have space := family.space family.active
    have later := bounded.grows space space (fun f member => (family.mirrored f (family.stocked f member).1).small) grows
    rw [← grows.other.1] at later
    refine .of_yields ((tryPages_yields family3.gate_active later inner.1 some place3
      (room.grows space inner.1 grows)).mono ?_)
    rintro answer m4 ⟨core, q, fits, rfl, free⟩
    have run : FreeRun m3.core slot size (slotPage slot q) := ⟨q, fits, rfl, free⟩
    refine ⟨core, by simp, by simp, by simp, ?_, _, rfl, run.of_grows space inner.1 grows⟩
    rw [core]
    exact grows
  refine search.finish ?_
  rintro answer _ m' - ⟨grows, va, rfl, run⟩
  exact .pure ⟨rfl, grows, run⟩

end Search

section Overflow

variable {m : Machine} {roots ram : Set Frame} {mirror g : Frame} {xs : List Index} {i slot : Index}
  {table entry heapBase : W64} {prop : PageProperties}

theorem Family.ensureEntry_present (family : Family m.core roots ram mirror) (tidy : Tidy m.core)
    (place : follow branches m.core.mem 3 m.core.cr3 xs = some g) (high : xs.length ≤ 2)
    (head : xs.head? ≠ some permSlot) (present : isPresent (m.core.mem g i) = true)
    (same : entryAddress table entry = entryAddress (window recurseActive xs) (i.setWidth 64)) :
    Yields m (ensureEntry table entry prop) fun _ m' => m'.core = m.core := by
  have skipped : ensure prop g i m.core = some (frameOf (m.core.mem g i), m.core) := by
    rw [ensure, if_pos present]
  refine ((family.ensureEntry_simulates tidy place high head same).yields skipped).mono ?_
  rintro _ m' ⟨core, -⟩
  exact core

theorem follow_levels {mem : Mem} {root t3 : Frame} {a b d : Index}
    (path : follow branches mem 3 root [a, b, d] = some t3) :
    ∃ t1 t2, follow branches mem 3 root [a] = some t1 ∧ follow branches mem 3 root [a, b] = some t2 ∧
      isPresent (mem root a) = true ∧ isPresent (mem t1 b) = true ∧ isPresent (mem t2 d) = true := by
  replace path : follow branches mem 3 root ([a, b] ++ [d]) = some t3 := path
  obtain ⟨t2, place2, third⟩ := follow_snoc_some path
  replace place2 : follow branches mem 3 root ([a] ++ [b]) = some t2 := place2
  obtain ⟨t1, place1, second⟩ := follow_snoc_some place2
  obtain ⟨_, first, _⟩ := follow_cons_some place1
  exact ⟨t1, t2, place1, place2, (branches_table first).1.present, (branches_table second).1.present,
    (branches_table third).1.present⟩

/-- The first page table of the slot is full, and the second has its first page free. -/
structure FirstFull (c : Core) (slot : Index) : Prop where
  full : ∀ k < 512, walk c.mem c.cr3 (pageNumber (slotPage slot k)) ≠ none
  next : Listed c.mem c.cr3 slot 512
  free : walk c.mem c.cr3 (pageNumber (slotPage slot 512)) = none

variable {c : Core}

theorem FirstFull.listed (full : FirstFull c slot) (tidy : Tidy c) (inner : slot ≠ recurseActive ∧ slot ≠ permSlot)
    {k : Nat} (upto : k ≤ 512) : Listed c.mem c.cr3 slot k := by
  rcases Nat.lt_or_eq_of_le upto with below | rfl
  · have outside : getPl4Index (slotPage slot k) ≠ recurseActive ∧ getPl4Index (slotPage slot k) ≠ permSlot := by
      rw [getPl4Index_slotPage]
      exact inner
    exact ⟨by omega, tidy.walk_table outside (full.full k below)⟩
  · exact full.next

theorem FirstFull.tables (full : FirstFull c slot) (tidy : Tidy c) (inner : slot ≠ recurseActive ∧ slot ≠ permSlot) :
    ∃ t1 t2, follow branches c.mem 3 c.cr3 [slot] = some t1 ∧ follow branches c.mem 3 c.cr3 [slot, 0#9] = some t2 ∧
      isPresent (c.mem c.cr3 slot) = true ∧ isPresent (c.mem t1 0#9) = true ∧ isPresent (c.mem t2 0#9) = true ∧
      isPresent (c.mem t2 1#9) = true := by
  obtain ⟨t3, near⟩ := (full.listed tidy inner (Nat.zero_le 512)).table
  rw [directories_slotPage, Nat.zero_div, Nat.zero_div] at near
  obtain ⟨t1, t2, place1, place2, to1, to2, to3⟩ := follow_levels near
  obtain ⟨t4, far⟩ := full.next.table
  rw [directories_slotPage] at far
  replace far : follow branches c.mem 3 c.cr3 [slot, 0#9, 1#9] = some t4 := far
  obtain ⟨_, t2', -, place2', -, -, to4⟩ := follow_levels far
  cases place2.symm.trans place2'
  exact ⟨t1, t2, place1, place2, to1, to2, to3, to4⟩

theorem tryTable_present {pt : Nat} {t2 : Frame} {found : Option W64 → Machine → Prop}
    (gate : Gate m.core recurseActive m.core.cr3) (small : pt < 512)
    (place : follow branches m.core.mem 3 m.core.cr3 [slot, 0#9] = some t2)
    (present : isPresent (m.core.mem t2 (BitVec.ofNat 9 pt)) = true)
    (pages : ∀ n : Machine, n.core = m.core → Yields n ((List.range 512).findSomeM? (tryPage slot 1 0 0 pt)) found) :
    Yields m (tryTable slot prop 1 0 0 pt) found := by
  have same : entryAddress (getRecursiveAddress recurseActive recurseActive slot 0#9 0#64) (BitVec.ofNat 64 pt) =
      entryAddress (window recurseActive [slot, 0#9]) ((BitVec.ofNat 9 pt).setWidth 64) := by
    rw [getRecursiveAddress_zero]
    exact entryAddress_inside small
  obtain ⟨a, m', taken, core, -⟩ :=
    vmmGetOrCreateEntry_window gate place present (List.prefix_refl _) (by simp) prop
  rw [← vmmGetOrCreateEntry_congr same] at taken
  exact .after (discard_eq taken) (pages m' core)

section FirstFull

variable (full : FirstFull c slot) (family : Family c roots ram mirror) (tidy : Tidy c) (bounded : Bounded c.mem c.cr3)
  (inner : slot ≠ recurseActive ∧ slot ≠ permSlot) (core : m.core = c)
include full family tidy bounded inner core

theorem FirstFull.tryPage_none {pt page : Nat} (below : pt + page < 512) :
    Yields m (tryPage slot 1 0 0 pt page) fun answer m' => answer = none ∧ m'.core = c := by
  subst core
  have here := full.listed tidy inner (by omega : pt + page ≤ 512)
  exact tryPage_found family.gate_active (Nat.le_refl 1) here
    ((found_iff bounded inner.1 here).mpr (full.full _ below))

theorem FirstFull.tryPage_wrong : Yields m (tryPage slot 1 0 0 1 511) fun answer m' =>
    answer = some (slotPage slot 1023) ∧ m'.core = c := by
  subst core
  have missing : ¬ Found m.core slot 512 := by
    rw [found_iff bounded inner.1 (full.listed tidy inner (Nat.le_refl 512)), not_not]
    exact full.free
  refine (tryPage_shifted family.gate_active (Nat.le_refl 1) full.next fun _ j only => ?_).mono ?_
  · obtain rfl : j = 0 := by omega
    exact full.next
  · rintro answer m' ⟨core, ⟨-, j, only, entry⟩ | ⟨rfl, -⟩⟩
    · obtain rfl : j = 0 := by omega
      exact absurd entry missing
    · exact ⟨rfl, core⟩

theorem FirstFull.tryTable_none :
    Yields m (tryTable slot prop 1 0 0 0) fun answer m' => answer = none ∧ m'.core = c := by
  subst core
  obtain ⟨t1, t2, -, place, -, -, present, -⟩ := full.tables tidy inner
  refine tryTable_present family.gate_active (by omega) place present fun n core => ?_
  refine Yields.findSomeM_none (fun n : Machine => n.core = m.core) (fun page member n' core' => ?_) core
  have below := List.mem_range.mp member
  exact full.tryPage_none family tidy bounded inner core' (by omega)

omit full family tidy bounded inner in
/-- A loop of the search that finds something in its iteration `k`. -/
theorem search_hit {body : Nat → VmmM (Option W64)} {va : W64} {k : Nat} (below : k < 512)
    (misses : ∀ j < k, ∀ n : Machine, n.core = c → Yields n (body j) fun answer m' => answer = none ∧ m'.core = c)
    (hit : ∀ n : Machine, n.core = c → Yields n (body k) fun answer m' => answer = some va ∧ m'.core = c) :
    Yields m ((List.range 512).findSomeM? body) fun answer m' => answer = some va ∧ m'.core = c := by
  obtain ⟨rest, split⟩ := range_split below
  rw [split]
  refine Yields.findSomeM (fun n : Machine => n.core = c) (fun j member n => misses j (List.mem_range.mp member) n)
    (fun n there => (hit n there).mono ?_) core
  rintro _ _ ⟨rfl, right⟩
  exact ⟨Option.some_ne_none _, rfl, right⟩

theorem FirstFull.tryTable_wrong : Yields m (tryTable slot prop 1 0 0 1) fun answer m' =>
    answer = some (slotPage slot 1023) ∧ m'.core = c := by
  subst core
  obtain ⟨t1, t2, -, place, -, -, -, present⟩ := full.tables tidy inner
  refine tryTable_present family.gate_active (by omega) place present fun n core => ?_
  exact search_hit core (by omega : 511 < 512)
    (fun page below n' core' => full.tryPage_none family tidy bounded inner core' (by omega))
    fun n' core' => full.tryPage_wrong family tidy bounded inner core'

theorem FirstFull.tryDirectory_wrong : Yields m (tryDirectory slot prop 1 0 0) fun answer m' =>
    answer = some (slotPage slot 1023) ∧ m'.core = c := by
  subst core
  have head : [slot].head? ≠ some permSlot := fun same => inner.2 (Option.some.inj same)
  obtain ⟨t1, t2, place, -, -, present, -⟩ := full.tables tidy inner
  refine (family.ensureEntry_present tidy place (by simp) head present ?_).bind fun _ n core => ?_
  · rw [entryAddress_zero, getRecursiveAddress_zero]
    exact (entryAddress_zero _).symm
  refine search_hit core (by omega : 1 < 512) (fun pt below n' core' => ?_)
    fun n' core' => full.tryTable_wrong family tidy bounded inner core'
  obtain rfl : pt = 0 := by omega
  exact full.tryTable_none family tidy bounded inner core'

theorem FirstFull.tryPointers_wrong : Yields m (tryPointers slot prop 1 0) fun answer m' =>
    answer = some (slotPage slot 1023) ∧ m'.core = c := by
  subst core
  have origin : follow branches m.core.mem 3 m.core.cr3 [] = some m.core.cr3 := rfl
  obtain ⟨t1, t2, -, -, present, -⟩ := full.tables tidy inner
  refine (family.ensureEntry_present tidy origin (by simp) (by simp) present ?_).bind fun _ n core => ?_
  · rw [entryAddress_zero]
    rfl
  exact search_hit core (by omega : 0 < 512) (fun pd below => absurd below (Nat.not_lt_zero pd))
    fun n' core' => full.tryDirectory_wrong family tidy bounded inner core'

end FirstFull

theorem Family.vmmFindFreeHeapSeries_overflow (family : Family m.core roots ram mirror) (tidy : Tidy m.core)
    (bounded : Bounded m.core.mem m.core.cr3) (base : heapBase = heapOffset ∨ heapBase = userHeapOffset)
    (full : FirstFull m.core (getPl4Index heapBase)) (prop : PageProperties) :
    Yields m (vmmFindFreeHeapSeries 1 heapBase prop) fun va m' =>
      va = slotPage (getPl4Index heapBase) 1023 ∧ m'.core = m.core := by
  have inner := (heapSlot_base base).inner.1
  rw [vmmFindFreeHeapSeries_eq]
  generalize getPl4Index heapBase = slot at *
  have search := search_hit rfl (by omega : 0 < 512) (fun dpt below => absurd below (Nat.not_lt_zero dpt))
    fun n core => (full.tryPointers_wrong family tidy bounded inner core : Yields n (tryPointers slot prop 1 0) _)
  refine search.bind ?_
  rintro answer m' ⟨rfl, core⟩
  exact .pure ⟨rfl, core⟩

end Overflow

end Neutrino.Virtual
