import Neutrino.Virtual.Accounts
import Neutrino.Virtual.HeapRuns

namespace Neutrino.Virtual

open Library

structure SCFreeArgs where
  pointer : W64
  size : W32

def sysFree (args : SCFreeArgs) : VmmM SyscallResult := do
  if args.size = 0#32 ∨ args.pointer = 0#64 then return .invalid
  if ← vmmFreeMemory 0#64 args.pointer args.size.toNat then return .success
  return .failure

section Unmapping

variable {m : Machine} {c : Core} {roots ram : Set Frame} {mirror f g h : Frame} {v : W64}
  {ys : List Index} {slot : Index} {prop : PageProperties} {n : Nat}

theorem descend_present {level : Nat} (path : follow branches c.mem level g ys = some h) :
    descend prop g ys c = some (h, c) := by
  induction ys generalizing level g with
  | nil =>
    cases path
    rfl
  | cons i ys ih =>
    obtain ⟨next, here, rest⟩ := follow_cons_some path
    have links := (branches_table here).1
    have first : ensure prop g i c = some (next, c) := by
      rw [ensure, if_pos links.present, links.frame]
    exact (bind_eq first).trans (ih rest)

theorem Sound.vmmUnmapPage_gone (sound : Sound m.core roots ram mirror)
    (inner : getPl4Index v ≠ recurseActive ∧ getPl4Index v ≠ permSlot)
    (mapped : walk m.core.mem m.core.cr3 (pageNumber v) ≠ none) :
    Yields m (vmmUnmapPage 0#64 v) fun _ m' => walk m'.core.mem m.core.cr3 (pageNumber v) = none := by
  have family := sound.family
  obtain ⟨h, path⟩ := sound.tidy.walk_table inner mapped
  have edit := family.editable family.active inner.1 (sound.tidy.plain_way inner)
  have target : m.core.target 0#64 = m.core.cr3 := if_pos rfl
  have same : m.core.shut (m.core.target 0#64) = m.core := if_pos target
  obtain ⟨c', taken⟩ : ∃ c', removePage m.core.cr3 v m.core = some ((), c') :=
    ⟨_, (bind_eq (descend_present path)).trans rfl⟩
  have ready := family.ready family.active
  have edit' := edit
  rw [← target] at ready edit'
  obtain ⟨res, m', done, core, -⟩ := (vmmUnmapPage_simulates (by decide) ready edit').yields
    (show removePage (m.core.target 0#64) v (m.core.shut (m.core.target 0#64)) = some ((), c') by
      rw [same, target, taken])
  rw [← core] at taken
  obtain ⟨t1, t2, t3, c1, grows, chain, removed, -⟩ := removePage_spec edit taken
  refine ⟨res, m', done, ?_⟩
  simp only [removed]
  exact remove_walk chain inner.1 (grows.space edit.space edit.space).tree
    (sound.bounded.grows edit.space edit.space family.supply_small grows)

variable (sound : Sound m.core roots ram mirror) (inner : slot ≠ recurseActive ∧ slot ≠ permSlot)
include sound inner

theorem Sound.unmapPages_gone {virt : Nat → W64}
    (distinct : ∀ i < n, ∀ j < n, pageNumber (virt i) = pageNumber (virt j) → i = j)
    (placed : ∀ i < n, getPl4Index (virt i) = slot)
    (mapped : ∀ i < n, walk m.core.mem m.core.cr3 (pageNumber (virt i)) ≠ none) :
    Yields m ((List.range n).forM fun i => discard (vmmUnmapPage 0#64 (virt i))) fun _ m' =>
      Touches roots (fun q => ∃ i < n, q = pageNumber (virt i)) m.core m'.core ∧
      ∀ i < n, walk m'.core.mem m.core.cr3 (pageNumber (virt i)) = none := by
  have outside : ∀ i < n, slotOf (pageNumber (virt i)) ≠ recurseActive := by
    intro i below
    rw [slotOf_pageNumber, placed i below]
    exact inner.1
  refine Yields.forM_range (fun k (m' : Machine) =>
    Touches roots (fun q => ∃ i < k, q = pageNumber (virt i)) m.core m'.core ∧
      ∀ i < k, walk m'.core.mem m.core.cr3 (pageNumber (virt i)) = none)
    ⟨.refl, fun i below => absurd below (Nat.not_lt_zero i)⟩ ?_
  rintro k below m1 ⟨before, gone⟩
  have sound1 := sound.touches before
  have root := before.edits.cr3
  have inner1 := inner
  rw [← placed k below] at inner1
  -- the page is still mapped, as it is none of those before it
  have still : walk m1.core.mem m1.core.cr3 (pageNumber (virt k)) ≠ none := by
    rw [root, before.others _ sound.family.active _ (outside k below)]
    · exact mapped k below
    · rintro ⟨i, earlier, same⟩
      exact absurd (distinct k below i (by omega) same) (by omega)
  have room : Room m1.core m1.core.cr3 (virt k) := ⟨canonical_of_walk still, inner1.1, sound1.tidy.plain_way inner1⟩
  obtain ⟨res, m2, done, next, absent⟩ := (sound1.family.vmmUnmapPage_touches room sound1.bounded).and_yields
    (sound1.vmmUnmapPage_gone inner1 still)
  refine .of_eq (discard_eq done) ⟨before.next next, fun i upto => ?_⟩
  rcases Nat.lt_succ_iff_lt_or_eq.mp upto with earlier | rfl
  · rw [next.others _ sound.family.active _ (outside i (by omega)), gone i earlier]
    intro same
    exact absurd (distinct i (by omega) k below same) (by omega)
  · rw [← root]
    exact absent

theorem Sound.vmmVirtToPhys_mapped {entries : List W64} (placed : getPl4Index v = slot)
    (mapped : walk m.core.mem m.core.cr3 (pageNumber v) = some ⟨entries, f⟩) :
    Yields m (vmmVirtToPhys 0#64 v) fun result m' => result = frameAddress f + getPageOffset v ∧ m'.core = m.core := by
  rw [← placed] at inner
  have there : walk m.core.mem m.core.cr3 (pageNumber v) ≠ none := mapped ▸ Option.some_ne_none _
  obtain ⟨h, path⟩ := sound.tidy.walk_table inner there
  have reaches : Reaches m.core (getRecursiveAddress recurseActive (getPl4Index v) (getDptIndex v) (getDirIndex v) 0#64)
      h := by
    rw [getRecursiveAddress_zero]
    exact reaches_window sound.family.gate_active path
  have present : isPresent (m.core.mem h (getTabIndex v)) = true := by
    cases shown : isPresent (m.core.mem h (getTabIndex v)) with
    | true => rfl
    | false => exact absurd (walk_absent inner.1 path shown) there
  obtain ⟨above, found⟩ := walk_present (canonical_of_walk there) inner.1 path present
  cases mapped.symm.trans found
  have asked : readCr3 m = some (frameAddress m.core.cr3, m) := rfl
  refine .after asked ?_
  rw [if_pos (.inr rfl)]
  refine .after (load_entry reaches _) (.pure ⟨?_, rfl⟩)
  exact congrArg (· + getPageOffset v) (getPhysicalAddress_frame (sound.bounded h _ ⟨_, path⟩ present))

end Unmapping

/-- Pages of a slot that are mapped to frames one after the other, below the 4 GiB that the physical
    allocator has addresses for. -/
structure Consecutive (mem : Mem) (root : Frame) (slot : Index) (addr : W64) (n : Nat) (f : Frame) : Prop where
  pos : 1 ≤ n
  fits : f.toNat + n ≤ 2 ^ 20
  placed : ∀ i < n, getPl4Index (pageAt addr i) = slot
  mapped : ∀ i < n, ∃ entries, walk mem root (pageNumber (pageAt addr i)) = some ⟨entries, f + BitVec.ofNat 40 i⟩

section Frees

variable {m m' : Machine} {roots ram : Set Frame} {mirror f : Frame} {addr : W64} {slot : Index} {n i : Nat}
  {args : SCFreeArgs} {res : SyscallResult}

theorem pageAt_distinct (small : n ≤ 2 ^ 20) (addr : W64) : ∀ i < n, ∀ j < n,
    pageNumber (pageAt addr i) = pageNumber (pageAt addr j) → i = j := by
  intro i first j second same
  have numbers := congrArg BitVec.toNat same
  have bound := addr.isLt
  simp only [pageNumber_toNat, pageAt, BitVec.toNat_add, BitVec.toNat_ofNat, pageSize] at numbers
  omega

theorem pageAt_series (fits : f.toNat + n ≤ 2 ^ 20) (below : i < n) :
    (pageAt (frameAddress f + getPageOffset addr) i).toNat < 2 ^ 32 ∧
      frameOf (pageAt (frameAddress f + getPageOffset addr) i) = f + BitVec.ofNat 40 i := by
  have offset := getPageOffset_toNat addr
  have number : (pageAt (frameAddress f + getPageOffset addr) i).toNat =
      (f.toNat + i) * 4096 + (getPageOffset addr).toNat := by
    simp only [pageAt, BitVec.toNat_add, BitVec.toNat_ofNat, frameAddress_toNat, pageSize]
    omega
  refine ⟨by omega, BitVec.eq_of_toNat_eq ?_⟩
  rw [frameOf_toNat, number, run_frame_toNat (by omega) below]
  omega

variable (sound : Sound m.core roots ram mirror) (inner : slot ≠ recurseActive ∧ slot ≠ permSlot)
include sound inner

theorem Sound.vmmFreeMemory_yields (pages : Consecutive m.core.mem m.core.cr3 slot addr n f) :
    Yields m (vmmFreeMemory 0#64 addr n) fun res m' => res = true ∧ ∃ (c : Core) (physAddr : W64),
      m'.core = { c with freed := c.freed ++ (List.range n).map (pageAt physAddr) } ∧
      Touches roots (fun q => ∃ i < n, q = pageNumber (pageAt addr i)) m.core c ∧
      (∀ i < n, walk c.mem m.core.cr3 (pageNumber (pageAt addr i)) = none) ∧
      ∀ i < n, (pageAt physAddr i).toNat < 2 ^ 32 ∧ frameOf (pageAt physAddr i) = f + BitVec.ofNat 40 i := by
  have fits := pages.fits
  have small : n ≤ 2 ^ 20 := by omega
  obtain ⟨entries, first⟩ := pages.mapped 0 pages.pos
  have placed := pages.placed 0 pages.pos
  have start : f + BitVec.ofNat 40 0 = f := BitVec.add_zero f
  rw [pageAt_zero] at first placed
  rw [start] at first
  rw [vmmFreeMemory, unmapBlocks_eq small]
  refine (sound.vmmVirtToPhys_mapped inner placed first).bind ?_
  rintro physAddr m1 ⟨rfl, core⟩
  have mapped : ∀ i < n, walk m1.core.mem m1.core.cr3 (pageNumber (pageAt addr i)) ≠ none := by
    intro i below
    obtain ⟨entries, shown⟩ := pages.mapped i below
    rw [core, shown]
    exact Option.some_ne_none _
  rw [← core] at sound
  refine (sound.unmapPages_gone inner (pageAt_distinct small addr) pages.placed mapped).bind ?_
  rintro _ m2 ⟨touches, gone⟩
  rw [core] at touches gone
  refine .after (pmmFreeSeries_eq _ n) (.pure ⟨rfl, m2.core, _, rfl, touches, gone, ?_⟩)
  exact fun i below => pageAt_series fits below

theorem Sound.sysFree_yields (pages : Consecutive m.core.mem m.core.cr3 slot args.pointer args.size.toNat f)
    (other : args.pointer ≠ 0#64) :
    ∃ m' c physAddr, sysFree args m = some (.success, m') ∧
      m'.core = { c with freed := c.freed ++ (List.range args.size.toNat).map (pageAt physAddr) } ∧
      Touches roots (fun q => ∃ i < args.size.toNat, q = pageNumber (pageAt args.pointer i)) m.core c ∧
      (∀ i < args.size.toNat, walk c.mem m.core.cr3 (pageNumber (pageAt args.pointer i)) = none) ∧
      ∀ i < args.size.toNat, (pageAt physAddr i).toNat < 2 ^ 32 ∧
        frameOf (pageAt physAddr i) = f + BitVec.ofNat 40 i := by
  obtain ⟨freed, m', done, rfl, c, physAddr, facts⟩ := sound.vmmFreeMemory_yields inner pages
  have valid : ¬ (args.size = 0#32 ∨ args.pointer = 0#64) := by
    rintro (zero | null)
    · have pos := pages.pos
      rw [zero] at pos
      cases pos
    · exact other null
  refine ⟨m', c, physAddr, ?_, facts⟩
  rw [sysFree, if_neg valid]
  exact bind_eq done

end Frees

section Unchecked

variable {m : Machine} {roots ram : Set Frame} {mirror f : Frame} {slot : Index} {args : SCFreeArgs}

/-- The call does not ask whose pages it is given: mapped pages of any slot but the window of the tables
    and the mirror go, with their frames. -/
theorem sysFree_unchecked (sound : Sound m.core roots ram mirror) (inner : slot ≠ recurseActive ∧ slot ≠ permSlot)
    (pages : Consecutive m.core.mem m.core.cr3 slot args.pointer args.size.toNat f) (other : args.pointer ≠ 0#64) :
    ∃ m', sysFree args m = some (.success, m') ∧ ∀ i < args.size.toNat,
      walk m'.core.mem m.core.cr3 (pageNumber (pageAt args.pointer i)) = none ∧
      ∃ a ∈ m'.core.freed, a.toNat < 2 ^ 32 ∧ frameOf a = f + BitVec.ofNat 40 i := by
  obtain ⟨m', c, physAddr, done, core, -, gone, series⟩ := sound.sysFree_yields inner pages other
  refine ⟨m', done, fun i below => ?_⟩
  rw [core]
  exact ⟨gone i below, _, List.mem_append_right _ (List.mem_map.mpr ⟨i, List.mem_range.mpr below, rfl⟩), series i below⟩

/-- The first block of a heap. -/
theorem firstBlock (user : Bool) : ∃ va m, vmmAllocateHeap 1 user (bootMachine 7) = some (va, m) ∧
    Sound m.core {1#40} lowFrames 2#40 ∧ Consecutive m.core.mem m.core.cr3 (heapSlot user) va 1 3#40 ∧ va ≠ 0#64 := by
  have sound := boot_sound (by omega : 7 ≤ 2 ^ 20)
  have fits := boot_fits user
  obtain ⟨va, m, taken⟩ := sound.family.vmmAllocateHeap_total sound.tidy sound.bounded fits (by decide)
  obtain ⟨f, rest, first, touches, run, there⟩ := sound.family.vmmAllocateHeap_ensures sound.tidy sound.bounded fits
    _ _ taken
  have root : m.core.cr3 = 1#40 := touches.edits.cr3
  cases first
  refine ⟨va, m, taken, (sound.taken rfl).touches touches, ⟨Nat.le_refl 1, by decide, ?_, ?_⟩,
    run.ne_zero (Nat.le_refl 1)⟩
  · exact fun i below => (run.unmapped i below).1
  · rw [root]
    exact there

/-- The kernel's own first heap block, given to the call by a task. -/
theorem sysFree_unchecked_kernel : ∃ va m m', vmmAllocateHeap 1 false (bootMachine 7) = some (va, m) ∧
    getPl4Index va = heapSlot false ∧ sysFree ⟨va, 1#32⟩ m = some (.success, m') ∧
    walk m'.core.mem m.core.cr3 (pageNumber va) = none := by
  obtain ⟨va, m, taken, sound, pages, other⟩ := firstBlock false
  obtain ⟨m', done, gone⟩ := @sysFree_unchecked m _ _ _ _ _ ⟨va, 1#32⟩ sound (heapSlot_inner false) pages other
  have slot := pages.placed 0 Nat.one_pos
  have absent := (gone 0 Nat.one_pos).1
  rw [pageAt_zero] at slot absent
  exact ⟨va, m, m', taken, slot, done, absent⟩

end Unchecked

section Given

variable {c c' : Core} {roots ram : Set Frame} {mirror t : Frame} {a : W64}

theorem Family.edits_given (family : Family c roots ram mirror) (member : t ∈ roots) (edits : Edits t c c')
    (given : a ∈ c'.freed) : a ∈ c.freed ∨ IsTable c.mem t (frameOf a) ∨ frameOf a ∈ c.supply := by
  induction edits with
  | refl => exact .inl given
  | tail before edit ih =>
    cases edit with
    | link linked =>
      cases linked
      exact ih given
    | leaf => exact ih given
    | close => exact ih given
    | @drop xs g h i place high outside links vacant =>
      rcases List.mem_append.mp given with old | new
      · exact ih old
      · cases List.mem_singleton.mp new
        rw [frameOf_getPhysicalAddress, links.frame]
        exact .inr (family.edits_tables member member before ⟨_, follow_links place high outside links⟩)

theorem Sound.stock {m : Machine} {supply : List Frame} (sound : Sound m.core roots ram mirror)
    (stock : Stock m.core.mem roots ram supply) : Sound (m.stock supply).core roots ram mirror :=
  (sound.withSupply stock).freed []

theorem Touches.user_kept {pages : PageNumber → Prop} {r : Frame} {q : PageNumber} (touches : Touches roots pages c c')
    (family : Family c roots ram mirror) (root : r ∈ roots) (slot : slotOf q = heapSlot true)
    (other : r = c.cr3 → ¬ pages q) : walk c'.mem r q = walk c.mem r q := by
  by_cases active : r = c.cr3
  · refine touches.others r root q ?_ (other active)
    rw [slot]
    exact (heapSlot_inner true).1
  · refine family.edits_lower family.active root active touches.edits ?_
    rw [slot]
    decide

end Given

/-- A page that a `sys_alloc` got in the space `space`, with its frame. -/
structure Grant where
  space : Frame
  page : PageNumber
  frame : Frame

inductive HeapSyscall
  | alloc (args : SCAllocArgs)
  | free (args : SCFreeArgs)
  | other

/-- The machine with the spaces of the tasks, and the pages that they got by `sys_alloc` and have not
    freed. -/
structure TaskHeaps where
  machine : Machine
  spaces : Set Frame
  live : Set Grant

namespace TaskHeaps

def mem (s : TaskHeaps) : Mem := s.machine.core.mem

/-- The space of the task that makes the call. -/
def root (s : TaskHeaps) : Frame := s.machine.core.cr3

/-- The pages are live in the heap of the task that makes the call, on frames one after the other. -/
structure Own (s : TaskHeaps) (args : SCFreeArgs) (f : Frame) : Prop where
  pos : 1 ≤ args.size.toNat
  fits : f.toNat + args.size.toNat ≤ 2 ^ 20
  live : ∀ i < args.size.toNat, getPl4Index (pageAt args.pointer i) = heapSlot true ∧
    ⟨s.root, pageNumber (pageAt args.pointer i), f + BitVec.ofNat 40 i⟩ ∈ s.live

/-- What a call may do that leaves the state `m`: translations change only in the heap of the task that
    makes it, but for the window of the tables, and what is given back is a table or live in that heap. -/
structure Contained (s : TaskHeaps) (supply : List Frame) (m : Machine) : Prop where
  changed : ∀ r ∈ s.spaces, ∀ q, slotOf q ≠ recurseActive → walk m.core.mem r q ≠ walk s.mem r q →
    r = s.root ∧ slotOf q = heapSlot true
  given : ∀ a ∈ m.core.freed, (IsTable s.mem s.root (frameOf a) ∨ frameOf a ∈ supply) ∨
    a.toNat < 2 ^ 32 ∧ ∃ q, ⟨s.root, q, frameOf a⟩ ∈ s.live

/-- After a `sys_alloc` of `n` pages at `va`, on the frames from `f` on. -/
def grant (s : TaskHeaps) (va : W64) (n : Nat) (f : Frame) (m : Machine) : TaskHeaps :=
  ⟨m, s.spaces, s.live ∪ {g | ∃ i < n, g = ⟨s.root, pageNumber (pageAt va i), f + BitVec.ofNat 40 i⟩}⟩

/-- After a `sys_free`: its pages and what was given back are no longer live. -/
def revoke (s : TaskHeaps) (args : SCFreeArgs) (m : Machine) : TaskHeaps :=
  ⟨m, s.spaces, {g | g ∈ s.live ∧ (g.space = s.root → ∀ i < args.size.toNat, g.page ≠ pageNumber (pageAt args.pointer i)) ∧
    ∀ a ∈ m.core.freed, frameOf a ≠ g.frame}⟩

/-- One call of the task whose space is active, with the frames that the allocator has for it. Between
    the calls other code may run: another space may become active, spaces may be made and given up, and
    in those that stay what is live stays mapped. -/
inductive Step (ram : Set Frame) (mirror : Frame) (s : TaskHeaps) : HeapSyscall × List Frame → TaskHeaps → Prop
  | alloc {args args' : SCAllocArgs} {f : Frame} {rest : List Frame} {res : SyscallResult} {m : Machine}
    (stock : Stock s.mem s.spaces ram (f :: rest))
    (fits : HeapFits (s.machine.stock (f :: rest)).core args.size.toNat args.user)
    (done : sysAlloc args (s.machine.stock (f :: rest)) = some ((res, args'), m)) :
    Step ram mirror s (.alloc args, f :: rest) (s.grant args'.pointer args.size.toNat f m)
  | free {args : SCFreeArgs} {f : Frame} {supply : List Frame} {res : SyscallResult} {m : Machine}
    (stock : Stock s.mem s.spaces ram supply) (own : s.Own args f)
    (done : sysFree args (s.machine.stock supply) = some (res, m)) :
    Step ram mirror s (.free args, supply) (s.revoke args m)
  | other {m : Machine} {spaces : Set Frame} (sound : Sound m.core spaces ram mirror)
    (kept : ∀ g ∈ s.live, g.space ∈ spaces → walk m.core.mem g.space g.page = walk s.mem g.space g.page) :
    Step ram mirror s (.other, []) ⟨m, spaces, {g ∈ s.live | g.space ∈ spaces}⟩

structure Inv (s : TaskHeaps) (ram : Set Frame) (mirror : Frame) : Prop where
  sound : Sound s.machine.core s.spaces ram mirror
  mapped : ∀ g ∈ s.live, g.space ∈ s.spaces ∧ (slotOf g.page = heapSlot true →
    ∃ entries, walk s.mem g.space g.page = some ⟨entries, g.frame⟩)

section Steps

variable {s s' : TaskHeaps} {ram : Set Frame} {mirror f : Frame} {supply : List Frame} {args : SCFreeArgs}
  {slot : Index} {label : HeapSyscall × List Frame} {labels : List (HeapSyscall × List Frame)} {m : Machine}

variable (inv : s.Inv ram mirror)
include inv

theorem Inv.keep {spaces : Set Frame} {live : Set Grant} (sound : Sound m.core spaces ram mirror)
    (kept : ∀ g ∈ live, g ∈ s.live ∧ (g.space ∈ s.spaces → g.space ∈ spaces ∧ (slotOf g.page = heapSlot true →
      walk m.core.mem g.space g.page = walk s.mem g.space g.page))) : Inv ⟨m, spaces, live⟩ ram mirror := by
  refine ⟨sound, fun g member => ?_⟩
  obtain ⟨old, kept⟩ := kept g member
  obtain ⟨root, mapped⟩ := inv.mapped g old
  obtain ⟨stays, same⟩ := kept root
  exact ⟨stays, fun slot => same slot ▸ mapped slot⟩

theorem Inv.alloc {args args' : SCAllocArgs} {rest : List Frame} {res : SyscallResult}
    (stock : Stock s.mem s.spaces ram (f :: rest))
    (fits : HeapFits (s.machine.stock (f :: rest)).core args.size.toNat args.user)
    (done : sysAlloc args (s.machine.stock (f :: rest)) = some ((res, args'), m)) :
    (s.grant args'.pointer args.size.toNat f m).Inv ram mirror := by
  have sound := inv.sound.stock stock
  rw [sysAlloc_pos fits.some] at done
  obtain ⟨va, m1, allocated, answer⟩ := bind_some done
  obtain ⟨_, _, first, touches, run, there⟩ :=
    sound.family.vmmAllocateHeap_ensures sound.tidy sound.bounded fits va m1 allocated
  cases first
  have sound' := sound.taken rfl
  obtain ⟨same, rfl⟩ : args'.pointer = va ∧ m1 = m := by
    split at answer <;> cases answer <;> exact ⟨rfl, rfl⟩
  rw [same]
  refine ⟨sound'.touches touches, ?_⟩
  rintro g (old | ⟨i, below, rfl⟩)
  · obtain ⟨root, mapped⟩ := inv.mapped g old
    refine ⟨root, fun slot => ?_⟩
    obtain ⟨entries, shown⟩ := mapped slot
    refine ⟨entries, (touches.user_kept sound'.family root slot ?_).trans shown⟩
    rintro space ⟨i, below, page⟩
    have absent := (run.unmapped i below).2
    rw [← page] at absent
    rw [space] at shown
    cases shown.symm.trans absent
  · exact ⟨sound.family.active, fun _ => there i below⟩

theorem Inv.pages (own : s.Own args f) :
    Consecutive s.mem s.root (heapSlot true) args.pointer args.size.toNat f ∧ args.pointer ≠ 0#64 := by
  refine ⟨⟨own.pos, own.fits, fun i below => (own.live i below).1, fun i below => ?_⟩, ?_⟩
  · obtain ⟨slot, live⟩ := own.live i below
    refine (inv.mapped _ live).2 ?_
    rw [slotOf_pageNumber]
    exact slot
  · intro null
    have slot := (own.live 0 own.pos).1
    rw [pageAt_zero, null] at slot
    exact absurd slot (by decide)

theorem Inv.free {res : SyscallResult} (stock : Stock s.mem s.spaces ram supply) (own : s.Own args f)
    (done : sysFree args (s.machine.stock supply) = some (res, m)) :
    (s.revoke args m).Inv ram mirror := by
  have sound := inv.sound.stock stock
  obtain ⟨pages, other⟩ := inv.pages own
  obtain ⟨_, c, physAddr, done', core, touches, -⟩ := sound.sysFree_yields (heapSlot_inner true) pages other
  cases done.symm.trans done'
  apply inv.keep
  · rw [core]
    exact (sound.touches touches).freed _
  · rw [core]
    rintro g ⟨live, apart, -⟩
    refine ⟨live, fun root => ⟨root, fun slot => touches.user_kept sound.family root slot ?_⟩⟩
    rintro space ⟨i, below, page⟩
    exact apart space i below page

theorem Inv.step (taken : s.Step ram mirror label s') : s'.Inv ram mirror := by
  cases taken with
  | alloc stock fits done => exact inv.alloc stock fits done
  | free stock own done => exact inv.free stock own done
  | other sound kept => exact inv.keep sound fun g live => ⟨live.1, fun _ => ⟨live.2, fun _ => kept g live.1 live.2⟩⟩

theorem Inv.run (run : Run (Step ram mirror) s labels s') : s'.Inv ram mirror := by
  have preserved : ∀ (s : TaskHeaps) label next, s.Inv ram mirror → s.Step ram mirror label next →
      next.Inv ram mirror := fun _ _ _ inv taken => inv.step taken
  exact run.invariant preserved inv

theorem Inv.contained (stock : Stock s.mem s.spaces ram supply) (own : s.Own args f) :
    ∃ m', sysFree args (s.machine.stock supply) = some (.success, m') ∧ s.Contained supply m' := by
  have sound := inv.sound.stock stock
  have family := sound.family
  obtain ⟨pages, other⟩ := inv.pages own
  obtain ⟨m', c, physAddr, done, core, touches, -, series⟩ := sound.sysFree_yields (heapSlot_inner true) pages other
  refine ⟨m', done, ?_, ?_⟩
  · rw [core]
    intro r root q outside changed
    have page : ∃ i < args.size.toNat, q = pageNumber (pageAt args.pointer i) := by
      by_contra none
      exact changed (touches.others r root q outside none)
    have slot : slotOf q = heapSlot true := by
      obtain ⟨i, below, rfl⟩ := page
      rw [slotOf_pageNumber]
      exact (own.live i below).1
    refine ⟨?_, slot⟩
    by_contra elsewhere
    exact changed (touches.user_kept family root slot fun same => absurd same elsewhere)
  · rw [core]
    intro a given
    rcases List.mem_append.mp given with table | data
    · rcases family.edits_given family.active touches.edits table with none | table
      · cases none
      · exact .inl table
    · obtain ⟨i, inside, rfl⟩ := List.mem_map.mp data
      have below := List.mem_range.mp inside
      obtain ⟨low, frame⟩ := series i below
      rw [frame]
      exact .inr ⟨low, _, (own.live i below).2⟩

theorem Inv.owned (stock : Stock s.mem s.spaces ram supply) (inner : slot ≠ recurseActive ∧ slot ≠ permSlot)
    (pages : Consecutive s.mem s.root slot args.pointer args.size.toNat f) (other : args.pointer ≠ 0#64) :
    ∃ m', sysFree args (s.machine.stock supply) = some (.success, m') ∧ (s.Contained supply m' →
      slot = heapSlot true ∧ ∀ i < args.size.toNat, ¬ IsTable s.mem s.root (f + BitVec.ofNat 40 i) →
        f + BitVec.ofNat 40 i ∉ supply → ∃ q, ⟨s.root, q, f + BitVec.ofNat 40 i⟩ ∈ s.live) := by
  have sound := inv.sound.stock stock
  obtain ⟨m', c, physAddr, done, core, -, gone, series⟩ := sound.sysFree_yields inner pages other
  refine ⟨m', done, fun contained => ⟨?_, fun i below data spare => ?_⟩⟩
  · have placed := pages.placed 0 pages.pos
    obtain ⟨entries, shown⟩ := pages.mapped 0 pages.pos
    rw [← placed, ← slotOf_pageNumber]
    refine (contained.changed s.root sound.family.active _ ?_ ?_).2
    · rw [slotOf_pageNumber, placed]
      exact inner.1
    · intro same
      rw [core] at same
      cases (gone 0 pages.pos).symm.trans (same.trans shown)
  · obtain ⟨low, frame⟩ := series i below
    have given : pageAt physAddr i ∈ m'.core.freed := by
      rw [core]
      exact List.mem_append_right _ (List.mem_map.mpr ⟨i, List.mem_range.mpr below, rfl⟩)
    have known := contained.given _ given
    rw [frame] at known
    rcases known with (table | unused) | ⟨-, live⟩
    · exact absurd table data
    · exact absurd unused spare
    · exact live

end Steps

end TaskHeaps

section Contained

variable {ram : Set Frame} {mirror : Frame}

/-- In runs in which tasks free only what is live in their heaps, such a call is contained. Of the
    calls for pages mapped to consecutive frames outside the window and the mirror, all of which
    succeed, no others are. -/
theorem sysFree_contained :
    (∀ (m : Machine) (args : SCFreeArgs), args.size = 0#32 ∨ args.pointer = 0#64 →
      sysFree args m = some (.invalid, m)) ∧
    ∀ (s s' : TaskHeaps) (labels : List (HeapSyscall × List Frame)), Sound s.machine.core s.spaces ram mirror → s.live = ∅ →
      Run (TaskHeaps.Step ram mirror) s labels s' →
      ∀ (supply : List Frame) (args : SCFreeArgs) (f : Frame), Stock s'.mem s'.spaces ram supply →
        (s'.Own args f → ∃ m', sysFree args (s'.machine.stock supply) = some (.success, m') ∧
          s'.Contained supply m') ∧
        ∀ slot, slot ≠ recurseActive ∧ slot ≠ permSlot →
          Consecutive s'.mem s'.root slot args.pointer args.size.toNat f → args.pointer ≠ 0#64 →
          ∃ m', sysFree args (s'.machine.stock supply) = some (.success, m') ∧ (s'.Contained supply m' →
            slot = heapSlot true ∧ ∀ i < args.size.toNat, ¬ IsTable s'.mem s'.root (f + BitVec.ofNat 40 i) →
              f + BitVec.ofNat 40 i ∉ supply → ∃ q, ⟨s'.root, q, f + BitVec.ofNat 40 i⟩ ∈ s'.live) := by
  refine ⟨fun m args refused => ?_, fun s s' labels sound none run supply args f stock => ?_⟩
  · rw [sysFree, if_pos refused]
    rfl
  · have start : s.Inv ram mirror := by
      refine ⟨sound, fun g live => ?_⟩
      rw [none] at live
      cases live
    have inv := start.run run
    exact ⟨inv.contained stock, fun slot inner pages other => inv.owned stock inner pages other⟩

theorem nil_stock {mem : Mem} {roots : Set Frame} : Stock mem roots ram [] := ⟨.nil, nofun⟩

/-- A task frees the page that it has got. -/
theorem sysFree_contained_page : ∃ va m m',
    Run (TaskHeaps.Step lowFrames 2#40) ⟨bootMachine 7, {1#40}, ∅⟩ [(.alloc ⟨1#32, 0#64, true⟩, spareFrames 7)]
      (TaskHeaps.grant ⟨bootMachine 7, {1#40}, ∅⟩ va 1 3#40 m) ∧
    getPl4Index va = heapSlot true ∧ sysFree ⟨va, 1#32⟩ (m.stock []) = some (.success, m') ∧
    TaskHeaps.Contained (TaskHeaps.grant ⟨bootMachine 7, {1#40}, ∅⟩ va 1 3#40 m) [] m' := by
  have sound := boot_sound (by omega : 7 ≤ 2 ^ 20)
  have stock := spareFrames_stock (by omega : 7 ≤ 2 ^ 20)
  obtain ⟨va, m, taken, sound', pages, other⟩ := firstBlock true
  have root : m.core.cr3 = 1#40 := sound'.family.active
  have done : sysAlloc ⟨1#32, 0#64, true⟩ (bootMachine 7) = some ((.success, ⟨1#32, va, true⟩), m) := by
    have some : 1 ≤ (1#32).toNat := Nat.le_refl 1
    rw [sysAlloc_pos some]
    exact (bind_eq taken).trans (congrFun (if_neg other) m)
  have slot := pages.placed 0 Nat.one_pos
  have run : Run (TaskHeaps.Step lowFrames 2#40) ⟨bootMachine 7, {1#40}, ∅⟩
      [(.alloc ⟨1#32, 0#64, true⟩, spareFrames 7)] (TaskHeaps.grant ⟨bootMachine 7, {1#40}, ∅⟩ va 1 3#40 m) :=
    .cons (.alloc stock (boot_fits true) done) (.nil _)
  have own : TaskHeaps.Own (TaskHeaps.grant ⟨bootMachine 7, {1#40}, ∅⟩ va 1 3#40 m) ⟨va, 1#32⟩ 3#40 :=
    ⟨pages.pos, pages.fits, fun i below => ⟨pages.placed i below, .inr ⟨i, below, congrArg (Grant.mk · _ _) root⟩⟩⟩
  obtain ⟨m', freed, contained⟩ := (sysFree_contained.2 _ _ _ sound rfl run [] _ _ nil_stock).1 own
  rw [pageAt_zero] at slot
  exact ⟨va, m, m', run, slot, freed, contained⟩

/-- A task frees the first block of the kernel's heap. -/
theorem sysFree_frees_kernel_heap : ∃ va m m', vmmAllocateHeap 1 false (bootMachine 7) = some (va, m) ∧
    Run (TaskHeaps.Step lowFrames 2#40) ⟨bootMachine 7, {1#40}, ∅⟩ [(.other, [])] ⟨m, {1#40}, ∅⟩ ∧
    sysFree ⟨va, 1#32⟩ (m.stock []) = some (.success, m') ∧
    ¬ TaskHeaps.Contained ⟨m, {1#40}, ∅⟩ [] m' := by
  obtain ⟨va, m, taken, sound, pages, other⟩ := firstBlock false
  have inv : TaskHeaps.Inv ⟨m, {1#40}, ∅⟩ lowFrames 2#40 := ⟨sound, nofun⟩
  obtain ⟨m', done, owned⟩ := @TaskHeaps.Inv.owned ⟨m, {1#40}, ∅⟩ _ _ _ [] ⟨va, 1#32⟩ _ inv nil_stock (heapSlot_inner false)
    pages other
  have step : TaskHeaps.Step lowFrames 2#40 ⟨bootMachine 7, {1#40}, ∅⟩ (.other, []) ⟨m, {1#40}, ∅⟩ := by
    have left := @TaskHeaps.Step.other lowFrames 2#40 ⟨bootMachine 7, {1#40}, ∅⟩ _ _ sound nofun
    rwa [Set.sep_empty] at left
  refine ⟨va, m, m', taken, .cons step (.nil _), done, fun contained => ?_⟩
  exact absurd (owned contained).1 (by decide)

end Contained

end Neutrino.Virtual
