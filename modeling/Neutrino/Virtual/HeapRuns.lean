import Mathlib.Data.List.Nodup
import Mathlib.Data.Set.Lattice
import Mathlib.Order.CompletePartialOrder
import Neutrino.Library.Runs
import Neutrino.Machine.Common
import Neutrino.Virtual.HeapCalls
import Neutrino.Virtual.Isolation

namespace Neutrino.Virtual

open Library

-- The system calls on the heap.

structure SCAllocArgs where
  size : W32
  pointer : W64
  user : Bool

def sysAlloc (args : SCAllocArgs) : VmmM (SyscallResult × SCAllocArgs) := do
  if args.size = 0#32 then return (.invalid, args)
  let args := { args with pointer := ← vmmAllocateHeap args.size.toNat args.user }
  if args.pointer = 0#64 then return (.failure, args)
  return (.success, args)

/-- The tables as the kernel keeps them between calls. -/
structure Sound (c : Core) (roots ram : Set Frame) (mirror : Frame) : Prop where
  family : Family c roots ram mirror
  tidy : Tidy c
  bounded : Bounded c.mem c.cr3

section Sound

variable {c c' : Core} {roots ram : Set Frame} {mirror f : Frame} {supply rest : List Frame}
  {pages : PageNumber → Prop}

variable (sound : Sound c roots ram mirror)
include sound

theorem Sound.withSupply (stock : Stock c.mem roots ram supply) : Sound (c.withSupply supply) roots ram mirror :=
  ⟨sound.family.withSupply stock, sound.tidy, sound.bounded⟩

theorem Sound.taken (first : c.supply = f :: rest) : Sound (c.withSupply rest) roots ram mirror :=
  ⟨(sound.family.taken first).1, sound.tidy, sound.bounded⟩

theorem Sound.touches (touches : Touches roots pages c c') : Sound c' roots ram mirror := by
  have family := sound.family
  refine ⟨family.edits family.active touches.edits, family.edits_tidy family.active touches.edits sound.tidy, ?_⟩
  rw [touches.edits.cr3]
  exact touches.bounded _ family.active sound.bounded

theorem Sound.freed (freed : List W64) : Sound { c with freed := freed } roots ram mirror :=
  ⟨sound.family.keep subset_rfl sound.family.active freed, sound.tidy, sound.bounded⟩

end Sound

structure HeapBlock where
  address : W64
  blocks : Nat

namespace HeapBlock

def page (a : HeapBlock) (i : Nat) : PageNumber := pageNumber (pageAt a.address i)

def bytes (a : HeapBlock) : Set Nat :=
  {x | a.address.toNat ≤ x ∧ x < a.address.toNat + a.blocks * pageSize}

/-- The block lies in the slot for a kind of allocations, from its page `q` on. -/
structure Placed (a : HeapBlock) (user : Bool) (q : Nat) : Prop where
  small : a.blocks ≤ 2 ^ 20
  inside : q + a.blocks ≤ 2 ^ 27
  address : a.address = slotPage (heapSlot user) q

variable {a b : HeapBlock} {user user' : Bool} {q q' i : Nat}

variable (placed : a.Placed user q)
include placed

theorem Placed.rooms {c : Core} (tidy : Tidy c) : ∀ i < a.blocks, Room c c.cr3 (pageAt a.address i) := by
  intro i below
  have inside := placed.inside
  rw [placed.address, pageAt_slotPage (by omega)]
  exact slotPage_room tidy (heapSlot_inner user) (by omega)

theorem Placed.page_eq (below : i < a.blocks) : a.page i = pageNumber (slotPage (heapSlot user) (q + i)) := by
  have inside := placed.inside
  rw [page, placed.address, pageAt_slotPage (by omega)]

theorem Placed.outside (below : i < a.blocks) : slotOf (a.page i) ≠ recurseActive := by
  rw [placed.page_eq below, slotOf_pageNumber, getPl4Index_slotPage]
  exact (heapSlot_inner user).1

theorem Placed.byte_page {x : Nat} (byte : x ∈ a.bytes) : ∃ i < a.blocks, (a.page i).toNat = x / 4096 := by
  obtain ⟨low, high⟩ := byte
  have inside := placed.inside
  rw [placed.address] at low high
  rw [pageSize] at high
  obtain ⟨i, offset, short, rfl⟩ : ∃ i, ∃ offset < 4096, x = (slotPage (heapSlot user) q).toNat + (i * 4096 + offset) :=
    ⟨(x - (slotPage (heapSlot user) q).toNat) / 4096, (x - (slotPage (heapSlot user) q).toNat) % 4096,
      by omega, by omega⟩
  have below : i < a.blocks := by omega
  refine ⟨i, below, ?_⟩
  rw [placed.page_eq below, pageNumber_toNat, slotPage_toNat (by omega), slotPage_toNat (by omega)]
  split <;> omega

theorem disjoint_of_pages (placed' : b.Placed user' q') (apart : ∀ i < a.blocks, ∀ j < b.blocks, a.page i ≠ b.page j) :
    Disjoint a.bytes b.bytes := by
  apply Set.disjoint_left.mpr
  intro x first second
  obtain ⟨i, below, here⟩ := placed.byte_page first
  obtain ⟨j, below', there⟩ := placed'.byte_page second
  exact apart i below j below' (BitVec.eq_of_toNat_eq (here.trans there.symm))

end HeapBlock

inductive HeapCall
  | alloc (blocks : Nat) (user : Bool)
  | free (a : HeapBlock)
  | other

/-- The machine with the allocations made in the active space that have not been freed. -/
structure HeapState where
  machine : Machine
  live : List HeapBlock

namespace HeapState

def mem (s : HeapState) : Mem := s.machine.core.mem

def root (s : HeapState) : Frame := s.machine.core.cr3

/-- One call, with the frames that the allocator has for it. Between the calls on the heap other code
    may run, and other spaces may be active, as long as the mappings of what is live stay. -/
inductive Step (roots ram : Set Frame) (mirror : Frame) (s : HeapState) : HeapCall × List Frame → HeapState → Prop
  | alloc {supply : List Frame} {blocks : Nat} {user : Bool} {va : W64} {m : Machine}
    (stock : Stock s.mem roots ram supply)
    (done : vmmAllocateHeap blocks user (s.machine.withSupply supply) = some (va, m)) :
    Step roots ram mirror s (.alloc blocks user, supply) ⟨m, ⟨va, blocks⟩ :: s.live⟩
  | free {supply : List Frame} {a : HeapBlock} {before behind : List HeapBlock} {res : Bool} {m : Machine}
    (stock : Stock s.mem roots ram supply) (live : s.live = before ++ a :: behind)
    (done : vmmFreeMemory 0#64 a.address a.blocks (s.machine.withSupply supply) = some (res, m)) :
    Step roots ram mirror s (.free a, supply) ⟨m, before ++ behind⟩
  | other {m : Machine} (sound : Sound m.core roots ram mirror) (again : m.core.cr3 = s.root)
    (kept : ∀ a ∈ s.live, ∀ i < a.blocks, walk m.core.mem s.root (a.page i) = walk s.mem s.root (a.page i)) :
    Step roots ram mirror s (.other, []) ⟨m, s.live⟩

/-- The allocations of a run are made where they fit. -/
def Fits (s : HeapState) : HeapCall × List Frame → Prop
  | (.alloc blocks user, supply) => HeapFits (s.machine.core.withSupply supply) blocks user
  | _ => True

def FittingStep (roots ram : Set Frame) (mirror : Frame) (s : HeapState) (label : HeapCall × List Frame)
    (s' : HeapState) : Prop :=
  s.Fits label ∧ s.Step roots ram mirror label s'

structure Inv (s : HeapState) (roots ram : Set Frame) (mirror : Frame) : Prop where
  sound : Sound s.machine.core roots ram mirror
  placed : ∀ a ∈ s.live, ∃ user q, a.Placed user q
  mapped : ∀ a ∈ s.live, ∀ i < a.blocks, walk s.mem s.root (a.page i) ≠ none
  apart : s.live.Pairwise fun a b => ∀ i < a.blocks, ∀ j < b.blocks, a.page i ≠ b.page j

section Steps

variable {s s' : HeapState} {roots ram : Set Frame} {mirror : Frame} {supply : List Frame} {blocks : Nat} {user : Bool}
  {va : W64} {m : Machine} {a : HeapBlock} {before behind : List HeapBlock} {res : Bool} {labels : List (HeapCall × List Frame)}

variable (inv : s.Inv roots ram mirror)
include inv

theorem Inv.alloc (stock : Stock s.mem roots ram supply)
    (fits : HeapFits (s.machine.core.withSupply supply) blocks user)
    (done : vmmAllocateHeap blocks user (s.machine.withSupply supply) = some (va, m)) :
    Inv ⟨m, ⟨va, blocks⟩ :: s.live⟩ roots ram mirror := by
  have sound := inv.sound.withSupply stock
  obtain ⟨f, rest, first, touches, run, there⟩ :=
    @Family.vmmAllocateHeap_ensures (s.machine.withSupply supply) _ _ _ _ _ sound.family sound.tidy sound.bounded fits
      va m done
  have root : m.core.cr3 = s.root := touches.edits.cr3
  obtain ⟨q, inside, address, free⟩ := run
  have placed : HeapBlock.Placed ⟨va, blocks⟩ user q := ⟨fits.small, inside, address⟩
  have unmapped : ∀ i < blocks, walk s.mem s.root (pageNumber (pageAt va i)) = none := by
    intro i below
    rw [address, pageAt_slotPage (by omega)]
    exact free i below
  have apart : ∀ b ∈ s.live, ∀ i < blocks, ∀ j < b.blocks, pageNumber (pageAt va i) ≠ b.page j := by
    intro b member i below j below' same
    apply inv.mapped b member j below'
    rw [← same]
    exact unmapped i below
  refine ⟨(sound.taken first).touches touches, ?_, ?_, ?_⟩
  · intro b member
    rcases List.mem_cons.mp member with rfl | member
    · exact ⟨user, q, placed⟩
    · exact inv.placed b member
  · rw [HeapState.root, root]
    intro b member j below
    rcases List.mem_cons.mp member with rfl | member
    · obtain ⟨entries, shown⟩ := there j below
      intro gone
      exact absurd (shown.symm.trans gone) (Option.some_ne_none _)
    · obtain ⟨user', q', placed'⟩ := inv.placed b member
      have kept : walk m.core.mem s.root (b.page j) = walk s.mem s.root (b.page j) := by
        apply touches.others _ inv.sound.family.active (b.page j) (placed'.outside below)
        rintro ⟨i, inside, same⟩
        exact apart b member i inside j below same.symm
      intro gone
      exact inv.mapped b member j below (kept.symm.trans gone)
  · exact List.pairwise_cons.mpr ⟨apart, inv.apart⟩

theorem Inv.free (stock : Stock s.mem roots ram supply) (live : s.live = before ++ a :: behind)
    (done : vmmFreeMemory 0#64 a.address a.blocks (s.machine.withSupply supply) = some (res, m)) :
    Inv ⟨m, before ++ behind⟩ roots ram mirror := by
  have sound := inv.sound.withSupply stock
  have present : a ∈ s.live := by
    rw [live]
    exact List.mem_append_right before List.mem_cons_self
  have fewer : (before ++ behind).Sublist s.live := by
    rw [live]
    exact .append (.refl before) (List.sublist_cons_self a behind)
  have apart : ∀ b ∈ before ++ behind, ∀ i < a.blocks, ∀ j < b.blocks, a.page i ≠ b.page j := by
    have pairs := inv.apart
    rw [live, List.pairwise_append] at pairs
    intro b member i below j below'
    rcases List.mem_append.mp member with left | right
    · exact (pairs.2.2 b left a List.mem_cons_self j below' i below).symm
    · exact List.rel_of_pairwise_cons pairs.2.1 right i below j below'
  obtain ⟨user, q, placed⟩ := inv.placed a present
  obtain ⟨c, freed, core, touches⟩ := @Family.vmmFreeMemory_touches (s.machine.withSupply supply) _ _ _ _ _ sound.family
    sound.bounded placed.small (placed.rooms sound.tidy) res m done
  have root : m.core.cr3 = s.root := by
    rw [core]
    exact touches.edits.cr3
  refine ⟨?_, fun b member => inv.placed b (fewer.subset member), ?_, inv.apart.sublist fewer⟩
  · rw [core]
    exact (sound.touches touches).freed freed
  · rw [HeapState.root, root]
    intro b member j below
    obtain ⟨user', q', placed'⟩ := inv.placed b (fewer.subset member)
    have kept : walk m.core.mem s.root (b.page j) = walk s.mem s.root (b.page j) := by
      rw [core]
      apply touches.others _ inv.sound.family.active (b.page j) (placed'.outside below)
      rintro ⟨i, inside, same⟩
      exact apart b member i inside j below same.symm
    intro gone
    exact inv.mapped b (fewer.subset member) j below (kept.symm.trans gone)

theorem Inv.step {label : HeapCall × List Frame} (taken : s.FittingStep roots ram mirror label s') :
    s'.Inv roots ram mirror := by
  obtain ⟨fits, taken⟩ := taken
  cases taken with
  | alloc stock done => exact inv.alloc stock fits done
  | free stock live done => exact inv.free stock live done
  | other sound again kept =>
    refine ⟨sound, inv.placed, fun a member i below gone => ?_, inv.apart⟩
    rw [root, again] at gone
    exact inv.mapped a member i below ((kept a member i below).symm.trans gone)

theorem Inv.run (run : Run (FittingStep roots ram mirror) s labels s') : s'.Inv roots ram mirror := by
  have preserved : ∀ (s : HeapState) label (next : HeapState), s.Inv roots ram mirror → s.FittingStep roots ram mirror label next →
      next.Inv roots ram mirror := fun _ _ _ kept taken => kept.step taken
  exact run.invariant preserved inv

theorem Inv.disjoint : s.live.Pairwise fun a b => Disjoint a.bytes b.bytes := by
  refine List.Pairwise.imp_of_mem ?_ inv.apart
  intro a b first second apart
  obtain ⟨user, q, placed⟩ := inv.placed a first
  obtain ⟨user', q', placed'⟩ := inv.placed b second
  exact HeapBlock.disjoint_of_pages placed placed' apart

end Steps

end HeapState

/-- The pages from the address on lie in the slot and are not mapped. -/
def Unmapped (c : Core) (slot : Index) (blocks : Nat) (va : W64) : Prop :=
  ∀ i < blocks, getPl4Index (pageAt va i) = slot ∧ walk c.mem c.cr3 (pageNumber (pageAt va i)) = none

section Calls

variable {m m' : Machine} {roots ram : Set Frame} {mirror : Frame} {heapBase va : W64} {size blocks : Nat} {user : Bool}
  {prop : PageProperties} {args args' : SCAllocArgs} {res : SyscallResult}

theorem FreeRun.unmapped {c : Core} {slot : Index} (run : FreeRun c slot blocks va) : Unmapped c slot blocks va := by
  obtain ⟨q, fits, rfl, free⟩ := run
  intro i below
  rw [pageAt_slotPage (by omega)]
  exact ⟨getPl4Index_slotPage, free i below⟩

theorem FreeRun.ne_zero {c : Core} (some : 1 ≤ blocks) (run : FreeRun c (heapSlot user) blocks va) : va ≠ 0#64 := by
  obtain ⟨q, fits, rfl, -⟩ := run
  intro zero
  have number := congrArg BitVec.toNat zero
  have high : 31 ≤ (heapSlot user).toNat := by cases user <;> decide
  rw [slotPage_toNat (by omega), BitVec.toNat_ofNat] at number
  omega

theorem sysAlloc_pos (some : 1 ≤ args.size.toNat) : sysAlloc args = (do
    let va ← vmmAllocateHeap args.size.toNat args.user
    if va = 0#64 then return (.failure, { args with pointer := va })
    return (.success, { args with pointer := va })) := by
  have other : args.size ≠ 0#32 := by
    intro zero
    rw [zero] at some
    cases some
  rw [sysAlloc, if_neg other]

variable (sound : Sound m.core roots ram mirror)
include sound

theorem Sound.vmmFindFreeHeapSeries_unmapped (base : heapBase = heapOffset ∨ heapBase = userHeapOffset) (some : 1 ≤ size)
    (room : HeapRoom m.core (getPl4Index heapBase) size) :
    (vmmFindFreeHeapSeries size heapBase prop m = .some (va, m') →
      Unmapped m.core (getPl4Index heapBase) size va) ∧
    (3 ≤ m.core.supply.length → ∃ va m', vmmFindFreeHeapSeries size heapBase prop m = .some (va, m')) := by
  have searching := sound.family.vmmFindFreeHeapSeries_simulates sound.tidy sound.bounded base some room prop
  constructor
  · intro taken
    obtain ⟨_, -, -, run⟩ := searching.source taken
    exact run.unmapped
  · intro enough
    obtain ⟨_, _, descended, -⟩ := @descend_total m.core [getPl4Index heapBase, 0#9, 0#9] prop m.core.cr3 enough
    obtain ⟨va, m', taken, -⟩ := searching.yields descended
    exact ⟨va, m', taken⟩

theorem Sound.vmmAllocateHeap_unmapped (fits : HeapFits m.core blocks user)
    (taken : vmmAllocateHeap blocks user m = .some (va, m')) : Unmapped m.core (heapSlot user) blocks va ∧ va ≠ 0#64 := by
  obtain ⟨f, rest, -, -, run, -⟩ :=
    sound.family.vmmAllocateHeap_ensures sound.tidy sound.bounded fits va m' taken
  exact ⟨run.unmapped, run.ne_zero fits.some⟩

theorem Sound.sysAlloc_unmapped (fits : HeapFits m.core args.size.toNat args.user)
    (taken : sysAlloc args m = .some ((res, args'), m')) :
    res = .success ∧ Unmapped m.core (heapSlot args.user) args.size.toNat args'.pointer := by
  rw [sysAlloc_pos fits.some] at taken
  obtain ⟨va, m1, allocated, answer⟩ := bind_some taken
  obtain ⟨unmapped, other⟩ := sound.vmmAllocateHeap_unmapped fits allocated
  rw [if_neg other] at answer
  cases answer
  exact ⟨rfl, unmapped⟩

end Calls

section Soundness

variable {roots ram : Set Frame} {mirror : Frame}

/-- Where there is room in the first page table of the slot, the search comes back with pages that
    were not mapped, and so do the calls that it serves. In runs of such calls what is live never
    overlaps. -/
theorem heap_allocations_sound :
    (∀ (m : Machine) (heapBase : W64) (size : Nat) (prop : PageProperties), Sound m.core roots ram mirror →
      heapBase = heapOffset ∨ heapBase = userHeapOffset → 1 ≤ size → HeapRoom m.core (getPl4Index heapBase) size →
      (∀ va m', vmmFindFreeHeapSeries size heapBase prop m = some (va, m') →
        Unmapped m.core (getPl4Index heapBase) size va) ∧
      (3 ≤ m.core.supply.length → ∃ va m', vmmFindFreeHeapSeries size heapBase prop m = some (va, m'))) ∧
    (∀ (m : Machine) (blocks : Nat) (user : Bool), Sound m.core roots ram mirror → HeapFits m.core blocks user →
      (∀ va m', vmmAllocateHeap blocks user m = some (va, m') → Unmapped m.core (heapSlot user) blocks va) ∧
      (3 * blocks + 4 ≤ m.core.supply.length → ∃ va m', vmmAllocateHeap blocks user m = some (va, m'))) ∧
    (∀ (m : Machine) (args : SCAllocArgs), Sound m.core roots ram mirror →
      HeapFits m.core args.size.toNat args.user →
      (∀ res args' m', sysAlloc args m = some ((res, args'), m') →
        res = .success ∧ Unmapped m.core (heapSlot args.user) args.size.toNat args'.pointer) ∧
      (3 * args.size.toNat + 4 ≤ m.core.supply.length → ∃ answer m', sysAlloc args m = some (answer, m'))) ∧
    ∀ (s s' : HeapState) (labels : List (HeapCall × List Frame)), Sound s.machine.core roots ram mirror → s.live = [] →
      Run (HeapState.FittingStep roots ram mirror) s labels s' →
      s'.live.Pairwise fun a b => Disjoint a.bytes b.bytes := by
  refine ⟨?_, ?_, ?_, ?_⟩
  · intro m heapBase size prop sound base some room
    have both := fun va m' => @Sound.vmmFindFreeHeapSeries_unmapped m m' _ _ _ _ va _ prop sound base some room
    exact ⟨fun va m' => (both va m').1, (both 0#64 m).2⟩
  · intro m blocks user sound fits
    exact ⟨fun va m' taken => (sound.vmmAllocateHeap_unmapped fits taken).1,
      sound.family.vmmAllocateHeap_total sound.tidy sound.bounded fits⟩
  · intro m args sound fits
    refine ⟨fun res args' m' taken => sound.sysAlloc_unmapped fits taken, fun enough => ?_⟩
    obtain ⟨va, m', taken⟩ := sound.family.vmmAllocateHeap_total sound.tidy sound.bounded fits enough
    rw [sysAlloc_pos fits.some, bind_eq taken]
    split
    · exact ⟨_, m', rfl⟩
    · exact ⟨_, m', rfl⟩
  · intro s s' labels sound none run
    have inv : s.Inv roots ram mirror := by
      refine ⟨sound, ?_, ?_, ?_⟩ <;> rw [none]
      · exact fun a member => absurd member List.not_mem_nil
      · exact fun a member => absurd member List.not_mem_nil
      · exact .nil
    exact (inv.run run).disjoint

end Soundness

section Boot

/-- The frames after those of the kernel's first tables. -/
def spareFrames (n : Nat) : List Frame := (List.range n).map fun i => BitVec.ofNat 40 (3 + i)

def bootMachine (n : Nat) : Machine := ⟨bootCore.withSupply (spareFrames n), [], []⟩

theorem spareFrames_stock {n : Nat} (small : n ≤ 2 ^ 20) : Stock bootMem {1#40} lowFrames (spareFrames n) := by
  have number : ∀ i < n, (BitVec.ofNat 40 (3 + i)).toNat = 3 + i := by
    intro i below
    rw [BitVec.toNat_ofNat]
    omega
  refine ⟨?_, ?_⟩
  · refine List.Nodup.map_on ?_ List.nodup_range
    intro i first j second same
    have numbers := congrArg BitVec.toNat same
    rw [number i (List.mem_range.mp first), number j (List.mem_range.mp second)] at numbers
    omega
  · intro f member
    obtain ⟨i, inside, rfl⟩ := List.mem_map.mp member
    have toNat := number i (List.mem_range.mp inside)
    refine ⟨?_, ?_⟩
    · have below := List.mem_range.mp inside
      change (BitVec.ofNat 40 (3 + i)).toNat < 2 ^ 27
      omega
    · rintro r rfl ⟨xs, path⟩
      rcases boot_tables path with ⟨-, same⟩ | ⟨-, same⟩
      · rw [same] at toNat
        change 1 = 3 + i at toNat
        omega
      · rw [same] at toNat
        change 2 = 3 + i at toNat
        omega

theorem boot_sound {n : Nat} (small : n ≤ 2 ^ 20) : Sound (bootMachine n).core {1#40} lowFrames 2#40 :=
  ⟨boot_family.withSupply (spareFrames_stock small), boot_tidy, boot_bounded⟩

theorem boot_fits (user : Bool) : HeapFits (bootMachine 7).core 1 user := by
  refine ⟨Nat.le_refl 1, by omega, ⟨0, by omega, by omega, fun i below => ?_⟩, ?_⟩
  · obtain rfl : i = 0 := by omega
    exact ⟨by cases user <;> decide +kernel, fun past => absurd past (by omega)⟩
  · rintro f ⟨⟩
    decide

/-- What the allocator has left for a second call. -/
def laterFrames : List Frame := (spareFrames 14).drop 7

theorem later_stock {c : Core} (edits : Edits 1#40 (bootCore.withSupply (spareFrames 7).tail) c) :
    Stock c.mem {1#40} lowFrames laterFrames := by
  have all := spareFrames_stock (by omega : 14 ≤ 2 ^ 20)
  have family := boot_family.withSupply (spareFrames_stock (by omega : 7 ≤ 2 ^ 20))
  refine ⟨all.1.sublist (List.drop_sublist _ _), fun f member => ?_⟩
  have known := all.2 f (List.mem_of_mem_drop member)
  refine ⟨known.1, fun r root table => ?_⟩
  rcases (family.taken rfl).1.edits_tables rfl root edits table with old | new
  · exact known.2 r root old
  · have early : f ∈ (spareFrames 14).take 7 := List.mem_of_mem_tail new
    exact List.disjoint_take_drop all.1 (Nat.le_refl 7) early member

theorem user_fits {c : Core} {va : W64} (kernel : getPl4Index (pageAt va 0) = heapSlot false)
    (touches : Touches {1#40} (fun q => ∃ i < 1, q = pageNumber (pageAt va i))
      (bootCore.withSupply (spareFrames 7).tail) c) : HeapFits (c.withSupply laterFrames) 1 true := by
  refine ⟨Nat.le_refl 1, by omega, ⟨0, by omega, by omega, fun i below => ?_⟩, ?_⟩
  · obtain rfl : i = 0 := by omega
    refine ⟨?_, fun past => absurd past (by omega)⟩
    have outside : slotOf (pageNumber (slotPage (heapSlot true) 0)) ≠ recurseActive := by decide
    have other : ¬ ∃ i < 1, pageNumber (slotPage (heapSlot true) 0) = pageNumber (pageAt va i) := by
      rintro ⟨i, below, same⟩
      obtain rfl : i = 0 := by omega
      have slots := congrArg slotOf same
      rw [slotOf_pageNumber (pageAt va 0), kernel] at slots
      exact absurd slots (by decide)
    have same := touches.others 1#40 rfl _ outside other
    have root : c.cr3 = 1#40 := touches.edits.cr3
    show walk c.mem c.cr3 _ = none
    rw [root, same]
    decide +kernel
  · rintro f ⟨⟩
    decide

/-- A block for the kernel and one for a user. -/
theorem heap_allocations_two : ∃ va vb m1 m2, Unmapped (bootMachine 7).core 508#9 1 va ∧
    Run (HeapState.FittingStep {1#40} lowFrames 2#40) ⟨bootMachine 7, []⟩
      [(.alloc 1 false, spareFrames 7), (.alloc 1 true, laterFrames)] ⟨m2, [⟨vb, 1⟩, ⟨va, 1⟩]⟩ ∧
    vmmAllocateHeap 1 false (bootMachine 7) = some (va, m1) ∧
    ([⟨vb, 1⟩, ⟨va, 1⟩] : List HeapBlock).Pairwise fun a b => Disjoint a.bytes b.bytes := by
  obtain ⟨-, allocates, -, runs⟩ := @heap_allocations_sound {1#40} lowFrames 2#40
  have sound := boot_sound (by omega : 7 ≤ 2 ^ 20)
  obtain ⟨unmapped, returns⟩ := allocates (bootMachine 7) 1 false sound (boot_fits false)
  obtain ⟨va, m1, taken⟩ := returns (by decide)
  obtain ⟨f, rest, first, touches, -⟩ := sound.family.vmmAllocateHeap_ensures sound.tidy sound.bounded (boot_fits false) va m1 taken
  cases first
  have stock := later_stock touches.edits
  have fits := user_fits (unmapped va m1 taken 0 (by omega)).1 touches
  have sound1 := ((sound.taken rfl).touches touches).withSupply stock
  obtain ⟨vb, m2, taken'⟩ := (allocates (m1.withSupply laterFrames) 1 true sound1 fits).2
    (show 7 ≤ laterFrames.length by decide)
  have run : Run (HeapState.FittingStep {1#40} lowFrames 2#40) ⟨bootMachine 7, []⟩
      [(.alloc 1 false, spareFrames 7), (.alloc 1 true, laterFrames)] ⟨m2, [⟨vb, 1⟩, ⟨va, 1⟩]⟩ :=
    .cons ⟨boot_fits false, .alloc (spareFrames_stock (by omega)) taken⟩ (.cons ⟨fits, .alloc stock taken'⟩ (.nil _))
  exact ⟨va, vb, m1, m2, unmapped va m1 taken, run, taken, runs _ _ _ sound rfl run⟩
/-- The pages of a heap whose first table is full and whose second holds its last page only, as 513
    allocations of one block leave it. -/
def filledPage (i : Nat) : W64 := slotPage (heapSlot false) (if i < 512 then i else 1023)

theorem filledPage_distinct : ∀ i < 513, ∀ j < 513, pageNumber (filledPage i) = pageNumber (filledPage j) → i = j := by
  intro i first j second same
  have pages := slotPage_injective (by split <;> omega) (by split <;> omega) same
  split at pages <;> split at pages <;> omega

theorem heap_search_returns_mapped : ∃ m, Sound m.core {1#40} lowFrames 2#40 ∧
    (List.range 513).forM (fun i => vmmMapPage 0#64 (pageAt (frameAddress 0x10000#40) i) (filledPage i) pageKernelWrite)
      (bootMachine 1600) = some ((), m) ∧
    ∃ va m', vmmFindFreeHeapSeries 1 heapOffset ⟨true, false, true⟩ m = some (va, m') ∧
      walk m.core.mem m.core.cr3 (pageNumber va) ≠ none := by
  have sound := boot_sound (by omega : 1600 ≤ 2 ^ 20)
  have inner := heapSlot_inner false
  have rooms : ∀ i < 513, Room (bootMachine 1600).core (bootMachine 1600).core.cr3 (filledPage i) := by
    intro i below
    exact slotPage_room sound.tidy inner (by split <;> omega)
  have low : ∀ i < 513, (getPhysicalAddress (pageCreate (pageAt (frameAddress 0x10000#40) i) pageKernelWrite)).toNat <
      2 ^ 47 := fun i below => series_low (by decide) pageKernelWrite below
  have names : Names (bootMachine 1600).core {1#40} 0#64 (bootMachine 1600).core.cr3 := ⟨by decide, rfl, rfl⟩
  have enough : 3 * 513 ≤ (bootMachine 1600).core.supply.length := by
    simp [bootMachine, spareFrames, Core.withSupply]
  obtain ⟨⟨⟩, m, mapped, -⟩ := @Family.mapRun_yields (bootMachine 1600) _ _ _ _ _ sound.family names 513
    (pageAt (frameAddress 0x10000#40)) filledPage rooms filledPage_distinct pageKernelWrite enough
  obtain ⟨touches, there⟩ := sound.family.mapPages_touches rooms low filledPage_distinct _ _ mapped
  have sound' := sound.touches touches
  have root := touches.edits.cr3
  replace there : ∀ i < 513, walk m.core.mem m.core.cr3 (pageNumber (filledPage i)) ≠ none := by
    intro i below gone
    obtain ⟨entries, shown⟩ := there i below
    rw [← root, gone] at shown
    cases shown
  have last : walk m.core.mem m.core.cr3 (pageNumber (slotPage (heapSlot false) 1023)) ≠ none := there 512 (by omega)
  have full : FirstFull m.core (heapSlot false) := by
    refine ⟨fun k below => ?_, ⟨by omega, ?_⟩, ?_⟩
    · have page : filledPage k = slotPage (heapSlot false) k := by rw [filledPage, if_pos below]
      rw [← page]
      exact there k (by omega)
    · have outside := inner
      rw [← @getPl4Index_slotPage (heapSlot false) 1023] at outside
      have same : directories (slotPage (heapSlot false) 1023) = directories (slotPage (heapSlot false) 512) := by
        rw [directories_slotPage, directories_slotPage]
        rfl
      rw [← same]
      exact sound'.tidy.walk_table outside last
    · have outside : slotOf (pageNumber (slotPage (heapSlot false) 512)) ≠ recurseActive := by
        rw [slotOf_pageNumber, getPl4Index_slotPage]
        exact inner.1
      have empty : walk bootMem 1#40 (pageNumber (slotPage (heapSlot false) 512)) = none := by decide +kernel
      rw [root, touches.others _ sound.family.active _ outside ?_]
      · exact empty
      · rintro ⟨i, below, same⟩
        have page := slotPage_injective (by omega) (by split <;> omega) same
        split at page <;> omega
  obtain ⟨_, m', searched, rfl, -⟩ := @Family.vmmFindFreeHeapSeries_overflow m _ _ _ heapOffset sound'.family sound'.tidy
    sound'.bounded (.inl rfl) full ⟨true, false, true⟩
  exact ⟨m, sound', mapped, _, m', searched, last⟩

end Boot

end Neutrino.Virtual
