import Neutrino.Loader.Image
import Neutrino.Virtual.Isolation

namespace Neutrino.Loader

open Library
open Virtual (Frame PageNumber Core VmmM pageSize pageAt pageAt_frameAddress blockAt blockAt_eq pageNumber frameAddress
  frameOf slotOf recurseActive getPl4Index directories plain walk IsTable Family Tidy Stock Edits Room Names Maps Written
  Shown runByte runAddress readByte storeByte storeRun_yields vmmMapPage vmmAllocateMemory pageKernelWrite)

section Machines

variable {α β : Type} {h : Host}

theorem onMachine_yields {code : VmmM α} {post : α → Virtual.Machine → Prop} (yields : Yields h.machine code post) :
    Yields h (onMachine code) fun a h' => h'.series = h.series ∧ post a h'.machine := by
  obtain ⟨a, m, taken, holds⟩ := yields
  exact ⟨a, { h with machine := m }, by simp [onMachine, taken], rfl, holds⟩

theorem onMachine_bind (code : VmmM α) (next : α → VmmM β) :
    onMachine (code >>= next) = onMachine code >>= fun a => onMachine (next a) := by
  funext h
  simp only [onMachine, Bind.bind, StateT.bind, Option.bind]
  cases code h.machine <;> rfl

theorem forM_onMachine {ι : Type} (xs : List ι) (body : ι → VmmM PUnit) :
    xs.forM (fun x => onMachine (body x)) = onMachine (xs.forM body) := by
  induction xs with
  | nil => rfl
  | cons x xs ih =>
    have split : onMachine ((x :: xs).forM body) = onMachine (body x) >>= fun _ => onMachine (xs.forM body) :=
      onMachine_bind (body x) fun _ => xs.forM body
    rw [split, ← ih]
    rfl

end Machines

section Changes

variable {c c' c'' : Core} {roots ram : Set Frame} {mirror t t' f : Frame} {pageTable : W64} {wanted : W64 → Prop}
  {pages pages' : PageNumber → Prop} {frames frames' : Frame → Prop} {cost cost' n : Nat}

/-- What the loader relies on: the spaces are in order, and there is room for the pages that it
    maps in the space `t` of the task, which `pageTable` names. -/
structure Hosting (c : Core) (roots ram : Set Frame) (mirror : Frame) (pageTable : W64) (t : Frame)
    (wanted : W64 → Prop) : Prop where
  family : Family c roots ram mirror
  tidy : Tidy c
  names : Names c roots pageTable t
  rooms : ∀ v, wanted v → Room c t v
  window : ∀ f ∈ ram, Room c t (getMemAddress (frameAddress f))

theorem Hosting.edits (hosting : Hosting c roots ram mirror pageTable t wanted) (member : t' ∈ roots)
    (edits : Edits t' c c') : Hosting c' roots ram mirror pageTable t wanted where
  family := hosting.family.edits member edits
  tidy := hosting.family.edits_tidy member edits hosting.tidy
  names := hosting.names.edits edits
  rooms v asked := (hosting.rooms v asked).edits hosting.family member hosting.names.member edits
  window f inside := (hosting.window f inside).edits hosting.family member hosting.names.member edits

theorem Hosting.written (hosting : Hosting c roots ram mirror pageTable t wanted) (shown : Shown c roots f n)
    (written : Written f n c c') : Hosting c' roots ram mirror pageTable t wanted := by
  obtain ⟨mem, rfl, same⟩ := shown.tables written
  have room : ∀ v, Room c t v → Room (c.withMem mem) t v := fun v room =>
    ⟨room.inside, room.outside, Virtual.data_plain same hosting.names.member room.outside room.way⟩
  exact ⟨Family.data same hosting.family, Family.data_tidy same hosting.family hosting.tidy,
    ⟨hosting.names.aligned, hosting.names.target, hosting.names.member⟩,
    fun v asked => room v (hosting.rooms v asked), fun f inside => room _ (hosting.window f inside)⟩

/-- What may have changed: the translations of `pages` in the space `t`, the contents of `frames`
    and tables, and at most `cost` frames of the supply are used up. -/
structure Changes (roots : Set Frame) (t : Frame) (pages : PageNumber → Prop) (frames : Frame → Prop) (cost : Nat)
    (c c' : Core) : Prop where
  active : c'.cr3 = c.cr3
  others : ∀ q, slotOf q ≠ recurseActive → ¬ pages q → walk c'.mem t q = walk c.mem t q
  rows : ∀ g, (∀ r ∈ roots, ¬ IsTable c.mem r g) → g ∉ c.supply → ¬ frames g → c'.mem g = c.mem g
  apart : ∀ g, (∀ r ∈ roots, ¬ IsTable c.mem r g) → g ∉ c.supply →
    (∀ r ∈ roots, ¬ IsTable c'.mem r g) ∧ g ∉ c'.supply
  supply : c'.supply ⊆ c.supply
  cost : c.supply.length ≤ c'.supply.length + cost

theorem Changes.trans (first : Changes roots t pages frames cost c c')
    (second : Changes roots t pages' frames' cost' c' c'') :
    Changes roots t (fun q => pages q ∨ pages' q) (fun g => frames g ∨ frames' g) (cost + cost') c c'' where
  active := second.active.trans first.active
  others q outside other := by
    rw [second.others q outside fun later => other (.inr later),
      first.others q outside fun earlier => other (.inl earlier)]
  rows g apart unused other := by
    have ⟨apart', unused'⟩ := first.apart g apart unused
    rw [second.rows g apart' unused' fun later => other (.inr later),
      first.rows g apart unused fun earlier => other (.inl earlier)]
  apart g apart unused := by
    have ⟨apart', unused'⟩ := first.apart g apart unused
    exact second.apart g apart' unused'
  supply := fun _ member => first.supply (second.supply member)
  cost := by
    have one := first.cost
    have two := second.cost
    omega

theorem Changes.mono (changes : Changes roots t pages frames cost c c') (more : ∀ q, pages q → pages' q)
    (more' : ∀ g, frames g → frames' g) (dear : cost ≤ cost') : Changes roots t pages' frames' cost' c c' where
  active := changes.active
  others q outside other := changes.others q outside fun held => other (more q held)
  rows g apart unused other := changes.rows g apart unused fun held => other (more' g held)
  apart := changes.apart
  supply := changes.supply
  cost := by
    have bound := changes.cost
    omega

theorem Changes.of_maps (family : Family c roots ram mirror) (member : t ∈ roots) (member' : t' ∈ roots)
    (which : t = t' ∨ t' = c.cr3) (maps : Maps roots t' pages cost c c') :
    Changes roots t pages (fun _ => False) cost c c' where
  active := maps.edits.cr3
  others q outside other := maps.others t member which q outside other
  rows _ apart unused _ := (family.edits_row member' maps.edits apart unused).1
  apart _ apart unused := (family.edits_row member' maps.edits apart unused).2
  supply := maps.edits.supply
  cost := maps.supply

theorem Changes.of_written (member : t ∈ roots) (shown : Shown c roots f n) (written : Written f n c c') :
    Changes roots t (fun _ => False) (fun g => ∃ i < n, g = f + BitVec.ofNat 40 i) 0 c c' := by
  obtain ⟨mem, rfl, same⟩ := shown.tables written
  obtain ⟨mem', core, rows⟩ := written
  have equal : mem = mem' := congrArg Core.mem core
  subst equal
  refine ⟨rfl, fun q outside _ => Virtual.data_walk same member outside, fun g _ _ other => ?_,
    fun g apart unused => ⟨fun r root table => ?_, unused⟩, fun _ member => member, Nat.le_refl _⟩
  · exact rows g fun i below held => other ⟨i, below, held⟩
  · obtain ⟨xs, path⟩ := table
    exact apart r root ⟨xs, (Virtual.follow_row (same r root)).mp path⟩

end Changes

section Addresses

variable {f : Frame} {n i : Nat} {file : ByteMemory}

theorem pageAt_memAddress (fits : f.toNat + n ≤ 2 ^ 27) (below : i < n) :
    pageAt (getMemAddress (frameAddress f)) i = getMemAddress (frameAddress (f + BitVec.ofNat 40 i)) := by
  rw [← pageAt_frameAddress fits below, pageAt, pageAt, getMemAddress, getMemAddress, BitVec.add_assoc,
    BitVec.add_comm memvOffset, BitVec.add_assoc]

theorem window_distinct (fits : f.toNat + n ≤ 2 ^ 27) {j : Nat} (first : i < n) (second : j < n)
    (same : pageNumber (getMemAddress (frameAddress (f + BitVec.ofNat 40 i))) =
      pageNumber (getMemAddress (frameAddress (f + BitVec.ofNat 40 j)))) : i = j := by
  have one := Virtual.run_frame_toNat fits first
  have two := Virtual.run_frame_toNat fits second
  have place := @Virtual.window_toNat memvOffset (f + BitVec.ofNat 40 i) (by decide) (by decide) (by omega)
  have place' := @Virtual.window_toNat memvOffset (f + BitVec.ofNat 40 j) (by decide) (by decide) (by omega)
  have equal := congrArg BitVec.toNat same
  rw [Virtual.pageNumber_toNat, Virtual.pageNumber_toNat, getMemAddress, getMemAddress, place, place'] at equal
  have offset : memvOffset.toNat = 0xffff800000000000 := by decide
  omega

/-- The first page of a segment, and how many pages are mapped for it. -/
def segmentBase (file : ByteMemory) (header : W64) : W64 := vaddr file header &&& ~~~0xfff#64

def segmentPages (file : ByteMemory) (header : W64) : Nat := regionSize file header / pageSize

theorem segmentSize_toNat (memSize fileSize : W64) : (segmentSize memSize fileSize).toNat =
    (max memSize.toNat fileSize.toNat + 4095) % 2 ^ 64 / 4096 * 4096 % 2 ^ 32 := by
  have larger : (if memSize > fileSize then memSize else fileSize).toNat = max memSize.toNat fileSize.toNat := by
    split
    · next more =>
      have order : fileSize.toNat < memSize.toNat := more
      omega
    · next less =>
      have order : ¬ fileSize.toNat < memSize.toNat := less
      omega
  have masked := Virtual.getPhysicalAddress_toNat
    ((if memSize > fileSize then memSize else fileSize) + 0x1000#64 - 1#64)
  rw [Virtual.getPhysicalAddress] at masked
  rw [segmentSize, BitVec.toNat_setWidth, masked, BitVec.toNat_sub, BitVec.toNat_add, larger]
  simp only [BitVec.toNat_ofNat]
  omega

theorem regionSize_eq (header : W64) : regionSize file header = segmentPages file header * pageSize := by
  rw [segmentPages, regionSize, segmentSize_toNat, pageSize]
  omega

theorem segmentPages_le (header : W64) : segmentPages file header < 2 ^ 20 := by
  have bound := (segmentSize (memSize file header) (fileSize file header)).isLt
  rw [segmentPages, regionSize, pageSize]
  omega

theorem segmentPages_toNat (header : W64) :
    (segmentSize (memSize file header) (fileSize file header) / 0x1000#32).toNat = segmentPages file header := by
  rw [BitVec.toNat_udiv]
  rfl

theorem pageAt_distinct (base : W64) {j : Nat} (first : i < 2 ^ 20) (second : j < 2 ^ 20)
    (aligned : base.toNat % 4096 = 0) (same : pageNumber (pageAt base i) = pageNumber (pageAt base j)) : i = j := by
  have equal := congrArg BitVec.toNat same
  rw [Virtual.pageNumber_toNat, Virtual.pageNumber_toNat, pageAt, pageAt, BitVec.toNat_add, BitVec.toNat_add,
    BitVec.toNat_ofNat, BitVec.toNat_ofNat, pageSize] at equal
  have bound := base.isLt
  omega

theorem segmentBase_aligned (header : W64) : (segmentBase file header).toNat % 4096 = 0 := by
  have masked := Virtual.getPhysicalAddress_toNat (vaddr file header)
  rw [Virtual.getPhysicalAddress] at masked
  rw [segmentBase, masked]
  omega

end Addresses

section Operations

variable {h : Host} {roots ram : Set Frame} {mirror t f : Frame} {pageTable : W64} {wanted : W64 → Prop}
  {n : Nat} {rest : List Frame}

/-- Frames in a row that nothing is made of yet. -/
def Unused (c : Core) (roots ram : Set Frame) (f : Frame) (n : Nat) : Prop :=
  ∀ i < n, f + BitVec.ofNat 40 i ∈ ram ∧ (∀ r ∈ roots, ¬ IsTable c.mem r (f + BitVec.ofNat 40 i)) ∧
    f + BitVec.ofNat 40 i ∉ c.supply

theorem Unused.fits {c : Core} (unused : Unused c roots ram f (n + 1)) (family : Family c roots ram mirror)
    (small : n < 2 ^ 20) : f.toNat + (n + 1) ≤ 2 ^ 27 := by
  have first := (family.mirrored _ (unused 0 (by omega)).1).small
  have last := (family.mirrored _ (unused n (by omega)).1).small
  rw [BitVec.toNat_add, BitVec.toNat_ofNat] at first last
  have bound := f.isLt
  omega

section Allocation

variable {m : Virtual.Machine} (family : Family m.core roots ram mirror) (tidy : Tidy m.core)
  (unused : Unused m.core roots ram f (n + 1)) (fits : f.toNat + (n + 1) ≤ 2 ^ 27) (small : n < 2 ^ 20)
include family tidy unused fits small

theorem allocateSeries_yields (enough : 3 * (n + 1) ≤ m.core.supply.length) :
    Yields (m.withSupply (f :: m.core.supply)) (vmmAllocateMemory 0#64 (n + 1) pageKernelWrite) fun vaddr m' =>
      vaddr = runAddress f 0 ∧ Shown m'.core roots f (n + 1) ∧
      Maps roots m.core.cr3 (fun q => slotOf q = 256#9) (3 * (n + 1)) m.core m'.core := by
  have inside : ∀ i < n + 1, (f + BitVec.ofNat 40 i).toNat < 2 ^ 27 := by
    intro i below
    rw [Virtual.run_frame_toNat fits below]
    omega
  have slots : ∀ i < n + 1, getPl4Index (getMemAddress (pageAt (frameAddress f) i)) = 256#9 := by
    intro i below
    rw [pageAt_frameAddress fits below, Virtual.memAddress_slot (inside i below)]
  have names : Names m.core roots 0#64 m.core.cr3 := ⟨by decide, rfl, family.active⟩
  have rooms : ∀ i < n + 1, Room m.core m.core.cr3 (getMemAddress (pageAt (frameAddress f) i)) := by
    intro i below
    rw [pageAt_frameAddress fits below]
    obtain ⟨outside, way⟩ := tidy.memAddress_way (inside i below)
    exact ⟨Virtual.memAddress_canonical (inside i below), outside, way⟩
  have distinct : ∀ i < n + 1, ∀ j < n + 1, pageNumber (getMemAddress (pageAt (frameAddress f) i)) =
      pageNumber (getMemAddress (pageAt (frameAddress f) j)) → i = j := by
    intro i first j second same
    rw [pageAt_frameAddress fits first, pageAt_frameAddress fits second] at same
    exact window_distinct fits first second same
  have loop : ((List.range (n + 1)).forM fun i => vmmMapPage 0#64 (blockAt (frameAddress f) i)
      (getMemAddress (blockAt (frameAddress f) i)) pageKernelWrite) =
      (List.range (n + 1)).forM fun i => vmmMapPage 0#64 (pageAt (frameAddress f) i)
        (getMemAddress (pageAt (frameAddress f) i)) pageKernelWrite := by
    apply forM_congr
    intro i member
    have below := List.mem_range.mp member
    rw [blockAt_eq _ (by omega)]
  refine .after (Virtual.pmmAlloc_cons rfl) ?_
  rw [loop]
  refine (family.mapRun_yields names rooms distinct pageKernelWrite enough).bind ?_
  rintro _ m' ⟨maps, walks⟩
  refine .pure ⟨?_, ⟨fits, ?_, ?_⟩, maps.mono ?_⟩
  · simp [runAddress]
  · intro i below
    obtain ⟨_, apart, spare⟩ := unused i below
    exact (family.edits_row family.active maps.edits apart spare).2.1
  · intro i below
    obtain ⟨entries, found⟩ := walks i below
    rw [pageAt_frameAddress fits below, Virtual.frameOf_frameAddress] at found
    refine ⟨entries, ?_⟩
    rw [maps.edits.cr3]
    exact found
  · rintro q ⟨i, below, rfl⟩
    rw [Virtual.slotOf_pageNumber, slots i below]

end Allocation

/-- The frames from `f` on. -/
def Row (f : Frame) (n : Nat) (g : Frame) : Prop := ∃ i < n, g = f + BitVec.ofNat 40 i

theorem stores_yields (hosting : Hosting h.core roots ram mirror pageTable t wanted) (shown : Shown h.core roots f n)
    (first count : Nat) (value : Nat → Byte) (inside : first + count ≤ n * pageSize) :
    Yields h ((List.range count).forM fun i => onMachine (storeByte (runAddress f (first + i)) (value i)))
      fun _ h' => h'.series = h.series ∧ Hosting h'.core roots ram mirror pageTable t wanted ∧
        Shown h'.core roots f n ∧ Changes roots t (fun _ => False) (Row f n) 0 h.core h'.core ∧
        ∀ x < n * pageSize, runByte h'.core.mem f x =
          if first ≤ x ∧ x < first + count then value (x - first) else runByte h.core.mem f x := by
  rw [forM_onMachine]
  have active := hosting.family.active
  refine (onMachine_yields (storeRun_yields active shown first count value inside)).mono ?_
  intro _ h' done
  have ⟨left, written, bytes⟩ := done
  exact ⟨left, hosting.written shown written, shown.written active written,
    .of_written hosting.names.member shown written, bytes⟩

theorem runAddress_add (x i : Nat) : runAddress f x + BitVec.ofNat 64 i = runAddress f (x + i) := by
  rw [runAddress, runAddress, BitVec.add_assoc, ← BitVec.ofNat_add]

theorem runAddress_zero : runAddress f 0 = getMemAddress (frameAddress f) := by
  simp [runAddress]

theorem memoryAllocate_yields (hosting : Hosting h.core roots ram mirror pageTable t wanted)
    (unused : Unused h.core roots ram f (n + 1)) (series : h.series = f :: rest) {size : W32}
    (whole : size.toNat = n * pageSize) (enough : 3 * (n + 1) ≤ h.core.supply.length) :
    Yields h (memoryAllocate size) fun vmap h' =>
      vmap = ⟨frameAddress f, size, runAddress f 0⟩ ∧ h'.series = rest ∧
      Hosting h'.core roots ram mirror pageTable t wanted ∧ Shown h'.core roots f (n + 1) ∧
      Changes roots t (fun q => slotOf q = 256#9) (Row f (n + 1)) (3 * (n + 1)) h.core h'.core := by
  have family := hosting.family
  have tidy := hosting.tidy
  have small : n < 2 ^ 20 := by
    have bound := size.isLt
    rw [whole, pageSize] at bound
    omega
  have fits := unused.fits family small
  have offered : offerSeries h = some ((), ⟨h.machine.withSupply (f :: h.core.supply), rest⟩) := by
    rw [offerSeries, series]
  have blocks : (size / 0x1000#32 + 1#32).toNat = n + 1 := by
    have block : (0x1000#32).toNat = 4096 := rfl
    rw [BitVec.toNat_add, BitVec.toNat_udiv, whole, pageSize, block, BitVec.toNat_ofNat]
    omega
  rw [memoryAllocate, blocks]
  refine .after offered ?_
  have taken := @onMachine_yields _ ⟨h.machine.withSupply (f :: h.core.supply), rest⟩ _ _
    (allocateSeries_yields family tidy unused fits small enough)
  refine taken.bind ?_
  rintro vaddr h1 ⟨left, base, shown, maps⟩
  subst base
  have hosting1 : Hosting h1.core roots ram mirror pageTable t wanted := hosting.edits family.active maps.edits
  have changed : Changes roots t (fun q => slotOf q = 256#9) (fun _ => False) (3 * (n + 1)) h.core h1.core :=
    .of_maps family hosting.names.member family.active (.inr rfl) maps
  simp only [runAddress_add]
  refine (stores_yields hosting1 shown 0 size.toNat (fun _ => 0#8) (by rw [whole, pageSize]; omega)).bind ?_
  rintro _ h2 ⟨left', hosting2, shown2, changed', bytes⟩
  refine .pure ⟨?_, left'.trans left, hosting2, shown2, ?_⟩
  · rw [runAddress_zero, getRmemAddress, getMemAddress, BitVec.add_sub_cancel]
  · exact (changed.trans changed').mono (by simp) (by simp) (by omega)

theorem spaceMap_yields (hosting : Hosting h.core roots ram mirror pageTable t wanted)
    (fits : f.toNat + n ≤ 2 ^ 27) (small : n < 2 ^ 20) {base : W64} {size : W32} (count : size.toNat = n)
    (rooms : ∀ i < n, Room h.core t (pageAt base i))
    (distinct : ∀ i < n, ∀ j < n, pageNumber (pageAt base i) = pageNumber (pageAt base j) → i = j)
    (flags : MappingFlags) (enough : 3 * n ≤ h.core.supply.length) :
    Yields h (spaceMap pageTable (frameAddress f) base size flags) fun _ h' => h'.series = h.series ∧
      Hosting h'.core roots ram mirror pageTable t wanted ∧
      Changes roots t (fun q => ∃ i < n, q = pageNumber (pageAt base i)) (fun _ => False) (3 * n) h.core h'.core ∧
      ∀ i < n, ∃ entries, walk h'.core.mem t (pageNumber (pageAt base i)) =
        some ⟨entries, f + BitVec.ofNat 40 i⟩ := by
  have ⟨family, _, names, _, _⟩ := hosting
  have loop : ((List.range n).forM fun i => vmmMapPage pageTable (blockAt (frameAddress f) i) (blockAt base i)
      ⟨flags.mapWritable, flags.mapUser, false⟩) = (List.range n).forM fun i =>
        vmmMapPage pageTable (pageAt (frameAddress f) i) (pageAt base i)
          ⟨flags.mapWritable, flags.mapUser, false⟩ := by
    apply forM_congr
    intro i member
    have below := List.mem_range.mp member
    rw [blockAt_eq _ (by omega), blockAt_eq _ (by omega)]
  rw [spaceMap, count, forM_onMachine, loop]
  refine (onMachine_yields (family.mapRun_yields names rooms distinct _ enough)).mono ?_
  intro _ h' done
  have ⟨left, maps, walks⟩ := done
  refine ⟨left, hosting.edits names.member maps.edits, .of_maps family names.member names.member (.inl rfl) maps, ?_⟩
  intro i below
  have ⟨entries, found⟩ := walks i below
  rw [pageAt_frameAddress fits below, Virtual.frameOf_frameAddress] at found
  exact ⟨entries, found⟩

end Operations

section Placing

variable {file : ByteMemory} {header : W64} {c c' : Core} {roots ram : Set Frame} {t f : Frame} {n : Nat}

/-- The byte of a segment's region at `x`. -/
def content (file : ByteMemory) (header : W64) (x : Nat) : Byte :=
  let first := (fileOffset file header).toNat % 4096
  if first ≤ x ∧ x < first + copied file header then file (fileOffset file header + BitVec.ofNat 64 (x - first)) else 0#8

/-- The pages of a segment show the frames from `f` on, which hold its region. -/
structure Placed (c : Core) (roots : Set Frame) (t f : Frame) (file : ByteMemory) (header : W64) : Prop where
  walks : ∀ i < segmentPages file header, ∃ entries,
    walk c.mem t (pageNumber (pageAt (segmentBase file header) i)) = some ⟨entries, f + BitVec.ofNat 40 i⟩
  bytes : ∀ x < regionSize file header, runByte c.mem f x = content file header x
  apart : ∀ i < segmentPages file header, (∀ r ∈ roots, ¬ IsTable c.mem r (f + BitVec.ofNat 40 i)) ∧
    f + BitVec.ofNat 40 i ∉ c.supply
  slots : ∀ i < segmentPages file header, getPl4Index (pageAt (segmentBase file header) i) ≠ recurseActive

theorem Changes.runByte {pages : PageNumber → Prop} {frames : Frame → Prop} {cost : Nat}
    (changes : Changes roots t pages frames cost c c') {x : Nat} (below : x < n * pageSize)
    (apart : ∀ i < n, (∀ r ∈ roots, ¬ IsTable c.mem r (f + BitVec.ofNat 40 i)) ∧ f + BitVec.ofNat 40 i ∉ c.supply)
    (elsewhere : ∀ i < n, ¬ frames (f + BitVec.ofNat 40 i)) : runByte c'.mem f x = runByte c.mem f x := by
  have part : x / pageSize < n := by
    rw [pageSize] at below ⊢
    omega
  obtain ⟨free, spare⟩ := apart _ part
  rw [Virtual.runByte, Virtual.runByte, Virtual.Mem.byte, Virtual.Mem.byte,
    changes.rows _ free spare (elsewhere _ part)]

theorem Placed.keep {pages : PageNumber → Prop} {frames : Frame → Prop} {cost : Nat}
    (placed : Placed c roots t f file header) (changes : Changes roots t pages frames cost c c')
    (other : ∀ i < segmentPages file header, ¬ pages (pageNumber (pageAt (segmentBase file header) i)))
    (elsewhere : ∀ i < segmentPages file header, ¬ frames (f + BitVec.ofNat 40 i)) :
    Placed c' roots t f file header where
  walks i below := by
    have ⟨entries, found⟩ := placed.walks i below
    refine ⟨entries, ?_⟩
    rw [changes.others _ _ (other i below), found]
    rw [Virtual.slotOf_pageNumber]
    exact placed.slots i below
  bytes x below := by
    rw [← placed.bytes x below]
    rw [regionSize_eq] at below
    exact changes.runByte below placed.apart elsewhere
  apart i below := by
    have ⟨apart, spare⟩ := placed.apart i below
    exact changes.apart _ apart spare
  slots := placed.slots

structure SegmentFormed (file : ByteMemory) (header : W64) : Prop where
  sizes : (fileSize file header).toNat ≤ (memSize file header).toNat
  congruent : (vaddr file header).toNat % 4096 = (fileOffset file header).toNat % 4096

/-- The pages that hold `mem_size` bytes are enough for where the segment starts in its first
    page, and the sizes survive their narrowing. -/
structure SegmentFits (file : ByteMemory) (header : W64) : Prop where
  wide : (memSize file header).toNat ≤ 2 ^ 32 - 4096
  positive : (fileSize file header).toNat < 2 ^ 31
  inside : 0 < (memSize file header).toNat → (vaddr file header).toNat % 4096 + (memSize file header).toNat ≤
    ((memSize file header).toNat + 4095) / 4096 * 4096

/-- A program in the space reads the segment as the file describes it. -/
def SegmentLoaded (mem : Virtual.Mem) (t : Frame) (file : ByteMemory) (header : W64) : Prop :=
  ∀ k < (memSize file header).toNat, readByte mem t (vaddr file header + BitVec.ofNat 64 k) =
    some (if k < (fileSize file header).toNat then file (fileOffset file header + BitVec.ofNat 64 k) else 0#8)

theorem regionSize_formed (formed : SegmentFormed file header) (fits : SegmentFits file header) :
    regionSize file header = ((memSize file header).toNat + 4095) / 4096 * 4096 := by
  have sizes := formed.sizes
  have wide := fits.wide
  rw [regionSize, segmentSize_toNat, Nat.max_eq_left sizes]
  omega

theorem copied_formed (fits : SegmentFits file header) : copied file header = (fileSize file header).toNat := by
  have positive := fits.positive
  have same : toInt32 (fileSize file header).toNat = ((fileSize file header).toNat : Int) := by
    apply Int.bmod_eq_of_le
    · omega
    · omega
  rw [copied, same, Int.toNat_natCast]

theorem copied_le (formed : SegmentFormed file header) (fits : SegmentFits file header) :
    copied file header ≤ regionSize file header := by
  have sizes := formed.sizes
  rw [regionSize_formed formed fits, copied_formed fits]
  omega

theorem segment_place (k : Nat) (small : k < 2 ^ 32) :
    pageNumber (vaddr file header + BitVec.ofNat 64 k) =
        pageNumber (pageAt (segmentBase file header) (((vaddr file header).toNat % 4096 + k) / pageSize)) ∧
      (vaddr file header + BitVec.ofNat 64 k).toNat % pageSize = ((vaddr file header).toNat % 4096 + k) % pageSize := by
  have masked := Virtual.getPhysicalAddress_toNat (vaddr file header)
  rw [Virtual.getPhysicalAddress] at masked
  rw [pageSize, BitVec.toNat_add, BitVec.toNat_ofNat]
  refine ⟨BitVec.eq_of_toNat_eq ?_, by omega⟩
  rw [Virtual.pageNumber_toNat, Virtual.pageNumber_toNat, pageAt, segmentBase, BitVec.toNat_add, BitVec.toNat_add,
    masked, BitVec.toNat_ofNat, BitVec.toNat_ofNat, pageSize]
  omega

theorem Placed.loaded (placed : Placed c roots t f file header) (formed : SegmentFormed file header)
    (fits : SegmentFits file header) : SegmentLoaded c.mem t file header := by
  intro k below
  have size := regionSize_formed formed fits
  have inside := fits.inside (by omega)
  have wide := fits.wide
  obtain ⟨page, place⟩ := @segment_place file header k (by omega)
  have part : ((vaddr file header).toNat % 4096 + k) / pageSize < segmentPages file header := by
    rw [segmentPages, size, pageSize]
    omega
  obtain ⟨entries, found⟩ := placed.walks _ part
  have byte := placed.bytes ((vaddr file header).toNat % 4096 + k) (by omega)
  rw [readByte, page, found, Option.map_some, place]
  show some (runByte c.mem f ((vaddr file header).toNat % 4096 + k)) = _
  rw [byte, content, copied_formed fits, formed.congruent]
  by_cases stored : k < (fileSize file header).toNat
  · rw [if_pos stored, if_pos (by omega), Nat.add_sub_cancel_left]
  · rw [if_neg stored, if_neg (by omega)]

end Placing

section Loading

variable {file : ByteMemory} {header binary : W64} {user : Bool} {h : Host} {roots ram : Set Frame}
  {mirror t f : Frame} {pageTable : W64} {wanted : W64 → Prop} {rest : List Frame}

theorem memorySet_hosted (size : W32) : memorySet (hosted file binary pageTable).store (runAddress f 0) 0#8 size =
    (List.range size.toNat).forM fun i => onMachine (storeByte (runAddress f (0 + i)) 0#8) := by
  refine congrArg (List.forM (List.range size.toNat)) (funext fun i => ?_)
  rw [← runAddress_add]
  rfl

theorem memoryCopy_hosted (source : W64) (first : Nat) (nbytes : Int) :
    memoryCopy (hosted file binary pageTable).load (hosted file binary pageTable).store (binary + source)
        (runAddress f first) nbytes =
      (List.range nbytes.toNat).forM fun i =>
        onMachine (storeByte (runAddress f (first + i)) (file (source + BitVec.ofNat 64 i))) := by
  refine congrArg (List.forM (List.range nbytes.toNat)) (funext fun i => ?_)
  have read : (hosted file binary pageTable).load (binary + source + BitVec.ofNat 64 i) =
      pure (file (source + BitVec.ofNat 64 i)) := by
    show pure (file (binary + source + BitVec.ofNat 64 i - binary)) = _
    rw [BitVec.add_assoc, BitVec.add_comm binary, BitVec.add_sub_cancel]
  rw [read, pure_bind, runAddress_add]
  rfl

theorem fileOffset_place :
    runAddress f 0 + fileOffset file header % 0x1000#64 = runAddress f ((fileOffset file header).toNat % 4096) := by
  have page : (0x1000#64).toNat = 4096 := rfl
  have part : fileOffset file header % 0x1000#64 = BitVec.ofNat 64 ((fileOffset file header).toNat % 4096) := by
    apply BitVec.eq_of_toNat_eq
    rw [BitVec.toNat_umod, page, BitVec.toNat_ofNat]
    omega
  rw [part, runAddress_add, Nat.zero_add]

theorem fill_yields {n : Nat} (hosting : Hosting h.core roots ram mirror pageTable t wanted)
    (shown : Shown h.core roots f (n + 1)) (whole : regionSize file header = n * pageSize)
    (short : copied file header ≤ n * pageSize) {size : W32} (sized : size.toNat = n * pageSize) :
    Yields h (do
      memorySet (hosted file binary pageTable).store (runAddress f 0) 0#8 size
      memoryCopy (hosted file binary pageTable).load (hosted file binary pageTable).store (binary + fileOffset file header)
        (runAddress f 0 + fileOffset file header % 0x1000#64) (toInt32 (fileSize file header).toNat)) fun _ h' =>
      h'.series = h.series ∧ Hosting h'.core roots ram mirror pageTable t wanted ∧ Shown h'.core roots f (n + 1) ∧
      Changes roots t (fun _ => False) (Row f (n + 1)) 0 h.core h'.core ∧
      ∀ x < regionSize file header, runByte h'.core.mem f x = content file header x := by
  have more : n * pageSize + 4096 = (n + 1) * pageSize := by
    rw [pageSize]
    omega
  have first : (fileOffset file header).toNat % 4096 < 4096 := Nat.mod_lt _ (by decide)
  rw [fileOffset_place, memoryCopy_hosted, memorySet_hosted, sized]
  refine (stores_yields hosting shown 0 (n * pageSize) (fun _ => 0#8) (by omega)).bind ?_
  rintro _ h1 ⟨left1, hosting1, shown1, changes1, bytes1⟩
  refine (stores_yields hosting1 shown1 _ (copied file header)
    (fun i => file (fileOffset file header + BitVec.ofNat 64 i)) (by omega)).mono ?_
  rintro _ h2 ⟨left2, hosting2, shown2, changes2, bytes2⟩
  refine ⟨left2.trans left1, hosting2, shown2, (changes1.trans changes2).mono (by simp) (by simp) (by omega), ?_⟩
  intro x below
  rw [bytes2 x (by omega), bytes1 x (by omega), content, if_pos (show 0 ≤ x ∧ x < 0 + n * pageSize by omega)]

/-- The pages that are mapped in the task's space for a segment: its own and those of the window. -/
def Touched (file : ByteMemory) (header : W64) (q : PageNumber) : Prop :=
  slotOf q = 256#9 ∨ ∃ i < segmentPages file header, q = pageNumber (pageAt (segmentBase file header) i)

def segmentCost (file : ByteMemory) (header : W64) : Nat := 3 * (3 * segmentPages file header + 1)

/-- The pages of a segment lie outside the window at `MEM_OFFSET`. -/
def OffWindow (file : ByteMemory) (header : W64) : Prop :=
  ∀ i < segmentPages file header, getPl4Index (pageAt (segmentBase file header) i) ≠ 256#9

theorem placeSegment_yields (hosting : Hosting h.core roots ram mirror pageTable t wanted)
    (short : copied file header ≤ regionSize file header)
    (unused : Unused h.core roots ram f (segmentPages file header + 1)) (series : h.series = f :: rest)
    (asked : ∀ i < segmentPages file header, wanted (pageAt (segmentBase file header) i)) (off : OffWindow file header)
    (enough : segmentCost file header ≤ h.core.supply.length) :
    Yields h (placeSegment file binary pageTable user header) fun _ h' => h'.series = rest ∧
      Hosting h'.core roots ram mirror pageTable t wanted ∧ Placed h'.core roots t f file header ∧
      Changes roots t (Touched file header) (Row f (segmentPages file header + 1)) (segmentCost file header)
        h.core h'.core := by
  have pages := @regionSize_eq file header
  have small := @segmentPages_le file header
  rw [pages] at short
  rw [segmentCost] at enough
  refine (memoryAllocate_yields hosting unused series pages (by omega)).bind ?_
  intro vmap h1 done
  have ⟨made, left1, hosting1, shown1, changes1⟩ := done
  have cost1 := changes1.cost
  subst made
  rw [← bind_assoc]
  refine (fill_yields hosting1 shown1 pages short pages).bind ?_
  intro _ h2 done
  have ⟨left2, hosting2, shown2, changes2, bytes2⟩ := done
  have cost2 := changes2.cost
  have rooms := fun i below => hosting2.rooms _ (asked i below)
  refine (spaceMap_yields hosting2 (by have := shown2.fits; omega) (segmentPages_le header) (segmentPages_toNat header) rooms ?_ _
    (by omega)).bind ?_
  · intro i first j second same
    exact pageAt_distinct _ (by omega) (by omega) (segmentBase_aligned header) same
  intro _ h3 done
  have ⟨left3, hosting3, changes3, walks3⟩ := done
  have cost3 := changes3.cost
  have apart2 : ∀ i < segmentPages file header, (∀ r ∈ roots, ¬ IsTable h2.core.mem r (f + BitVec.ofNat 40 i)) ∧
      f + BitVec.ofNat 40 i ∉ h2.core.supply := by
    intro i below
    have ⟨_, free, spare⟩ := unused i (by omega)
    exact (changes1.trans changes2).apart _ free spare
  have placed : Placed h3.core roots t f file header := by
    refine ⟨walks3, fun x below => ?_, fun i below => ?_, fun i below => (rooms i below).outside⟩
    · rw [← bytes2 x below]
      rw [pages] at below
      exact changes3.runByte below apart2 fun _ _ => id
    · exact changes3.apart _ (apart2 i below).1 (apart2 i below).2
  have inside := shown2.fits
  have window : ∀ i < segmentPages file header, pageAt (runAddress f 0) i =
      getMemAddress (frameAddress (f + BitVec.ofNat 40 i)) := by
    intro i below
    rw [runAddress_zero]
    exact pageAt_memAddress inside (by omega)
  refine (spaceMap_yields hosting3 (by omega) (segmentPages_le header) (segmentPages_toNat header) ?_ ?_ _ (by omega)).mono ?_
  · intro i below
    rw [window i below]
    exact hosting3.window _ (unused i (by omega)).1
  · intro i first j second same
    rw [window i first, window j second] at same
    exact window_distinct inside (by omega) (by omega) same
  intro _ h4 done
  have ⟨left4, hosting4, changes4, _⟩ := done
  have slots : ∀ q, (∃ i < segmentPages file header, q = pageNumber (pageAt (runAddress f 0) i)) → slotOf q = 256#9 := by
    rintro q ⟨i, below, rfl⟩
    rw [window i below, Virtual.slotOf_pageNumber, Virtual.memAddress_slot]
    rw [Virtual.run_frame_toNat inside (by omega)]
    omega
  refine ⟨by rw [left4, left3, left2, left1], hosting4, placed.keep changes4 ?_ fun _ _ => id, ?_⟩
  · intro i below held
    have slot := slots _ held
    rw [Virtual.slotOf_pageNumber] at slot
    exact off i below slot
  · refine (((changes1.trans changes2).trans changes3).trans changes4).mono ?_ ?_ ?_
    · intro q held
      rcases held with (((window | none) | own) | window)
      · exact .inl window
      · exact none.elim
      · exact .inr own
      · exact .inl (slots q window)
    · intro g held
      rcases held with (((row | row) | none) | none)
      · exact row
      · exact row
      · exact none.elim
      · exact none.elim
    · rw [segmentCost]
      omega

def PagesApart (file : ByteMemory) (header header' : W64) : Prop :=
  ∀ i < segmentPages file header, ∀ j < segmentPages file header',
    pageNumber (pageAt (segmentBase file header) i) ≠ pageNumber (pageAt (segmentBase file header') j)

def row (f : Frame) (n : Nat) : List Frame := (List.range n).map fun i => f + BitVec.ofNat 40 i

/-- The frames that the allocator hands out for segments, by the first frames of their series. -/
def granted (file : ByteMemory) : List W64 → List Frame → List Frame
  | header :: headers, f :: series => row f (segmentPages file header + 1) ++ granted file headers series
  | _, _ => []

theorem mem_row {n : Nat} {g : Frame} : g ∈ row f n ↔ Row f n g := by
  simp [row, Row, eq_comm]

theorem granted_left {headers : List W64} {c c' : Core} {pages : PageNumber → Prop} {frames : Frame → Prop} {cost : Nat}
    (stock : Stock c.mem roots ram (granted file (header :: headers) (f :: rest) ++ c.supply))
    (family : Family c' roots ram mirror) (changes : Changes roots t pages frames cost c c') :
    Stock c'.mem roots ram (granted file headers rest ++ c'.supply) := by
  have ⟨nodup, unused⟩ := stock
  rw [granted, List.append_assoc] at nodup unused
  have later := (List.nodup_append.mp nodup).2.1
  have ⟨once, _, differ⟩ := List.nodup_append.mp later
  constructor
  · refine List.nodup_append.mpr ⟨once, family.nodup, fun g given g' kept => ?_⟩
    exact differ g given g' (changes.supply kept)
  · intro g member
    rcases List.mem_append.mp member with given | kept
    · have ⟨inside, free⟩ := unused g (List.mem_append_right _ (List.mem_append_left _ given))
      refine ⟨inside, (changes.apart g free fun kept => ?_).1⟩
      exact differ g given g kept rfl
    · exact family.stocked g kept

theorem granted_unused {headers : List W64} {c : Core}
    (stock : Stock c.mem roots ram (granted file (header :: headers) (f :: rest) ++ c.supply)) :
    Unused c roots ram f (segmentPages file header + 1) ∧
      ∀ g ∈ granted file headers rest, ¬ Row f (segmentPages file header + 1) g := by
  have ⟨nodup, unused⟩ := stock
  rw [granted, List.append_assoc] at nodup unused
  have ⟨_, _, differ⟩ := List.nodup_append.mp nodup
  constructor
  · intro i below
    have given : f + BitVec.ofNat 40 i ∈ row f (segmentPages file header + 1) := mem_row.mpr ⟨i, below, rfl⟩
    have ⟨inside, free⟩ := unused _ (List.mem_append_left _ given)
    exact ⟨inside, free, fun kept => differ _ given _ (List.mem_append_right _ kept) rfl⟩
  · intro g later member
    exact differ g (mem_row.mpr member) g (List.mem_append_left _ later) rfl

theorem placeSegments_yields {headers : List W64} (hosting : Hosting h.core roots ram mirror pageTable t wanted)
    (formed : ∀ header ∈ headers, SegmentFormed file header) (fits : ∀ header ∈ headers, SegmentFits file header)
    (asked : ∀ header ∈ headers, ∀ i < segmentPages file header, wanted (pageAt (segmentBase file header) i))
    (off : ∀ header ∈ headers, OffWindow file header) (apart : headers.Pairwise (PagesApart file))
    (series : headers.length ≤ h.series.length)
    (stock : Stock h.core.mem roots ram (granted file headers h.series ++ h.core.supply))
    (enough : (headers.map (segmentCost file)).sum ≤ h.core.supply.length) :
    Yields h (headers.forM (placeSegment file binary pageTable user)) fun _ h' =>
      Changes roots t (fun q => ∃ header ∈ headers, Touched file header q) (· ∈ granted file headers h.series)
        (headers.map (segmentCost file)).sum h.core h'.core ∧
      ∀ header ∈ headers, SegmentLoaded h'.core.mem t file header := by
  induction headers generalizing h with
  | nil => exact .pure ⟨⟨rfl, fun _ _ _ => rfl, fun _ _ _ _ => rfl, fun _ free spare => ⟨free, spare⟩,
      fun _ kept => kept, Nat.le_refl _⟩, nofun⟩
  | cons header headers ih =>
    obtain ⟨f, rest, first⟩ : ∃ f rest, h.series = f :: rest := List.exists_cons_of_length_pos (by
      rw [List.length_cons] at series
      omega)
    rw [first] at stock series ⊢
    rw [List.map_cons, List.sum_cons] at enough ⊢
    have ⟨unused, later⟩ := granted_unused stock
    have ⟨differ, apart⟩ := List.pairwise_cons.mp apart
    have here : header ∈ header :: headers := List.mem_cons_self
    refine (placeSegment_yields hosting (copied_le (formed _ here) (fits _ here)) unused first (asked _ here) (off _ here)
      (by omega)).bind ?_
    intro _ h1 done
    have ⟨left1, hosting1, placed, changes1⟩ := done
    have cost1 := changes1.cost
    have stock1 := granted_left stock hosting1.family changes1
    rw [← left1] at stock1
    rw [List.length_cons, List.length_cons] at series
    refine (ih hosting1 (fun _ member => formed _ (List.mem_cons_of_mem _ member))
      (fun _ member => fits _ (List.mem_cons_of_mem _ member))
      (fun _ member => asked _ (List.mem_cons_of_mem _ member))
      (fun _ member => off _ (List.mem_cons_of_mem _ member)) apart (by rw [left1]; omega) stock1 (by omega)).mono ?_
    intro _ h2 done
    have ⟨changes2, loaded⟩ := done
    rw [left1] at changes2
    have kept : Placed h2.core roots t f file header := by
      refine placed.keep changes2 (fun i below touched => ?_) fun i below given => ?_
      · have ⟨header', member, touched⟩ := touched
        rcases touched with window | ⟨j, below', same⟩
        · rw [Virtual.slotOf_pageNumber] at window
          exact off _ here i below window
        · exact differ header' member i below j below' same
      · exact later _ given ⟨i, by omega, rfl⟩
    refine ⟨(changes1.trans changes2).mono ?_ ?_ (Nat.le_refl _), List.forall_mem_cons.mpr
      ⟨kept.loaded (formed _ here) (fits _ here), loaded⟩⟩
    · intro q touched
      rcases touched with touched | ⟨header', member, touched⟩
      · exact ⟨header, here, touched⟩
      · exact ⟨header', List.mem_cons_of_mem _ member, touched⟩
    · intro g written
      rcases written with written | written
      · exact List.mem_append_left _ (mem_row.mpr written)
      · exact List.mem_append_right _ written

/-- The machine and the task's space `t` are in order, no page of a segment is in the window or
    at the recursive entries, and the allocator has the memory that is asked of it. -/
structure LoadReady (h : Host) (roots ram : Set Frame) (mirror : Frame) (pageTable : W64) (t : Frame)
    (file : ByteMemory) : Prop where
  hosting : Hosting h.core roots ram mirror pageTable t fun v =>
    ∃ header ∈ loads file, ∃ i < segmentPages file header, v = pageAt (segmentBase file header) i
  off : ∀ header ∈ loads file, OffWindow file header
  series : (loads file).length ≤ h.series.length
  stock : Stock h.core.mem roots ram (granted file (loads file) h.series ++ h.core.supply)
  enough : ((loads file).map (segmentCost file)).sum ≤ h.core.supply.length

def WellFormed (file : ByteMemory) : Prop := ∀ header ∈ loads file, SegmentFormed file header

structure ImageFits (file : ByteMemory) : Prop where
  segments : ∀ header ∈ loads file, SegmentFits file header
  apart : (loads file).Pairwise (PagesApart file)

def ImageLoaded (mem : Virtual.Mem) (t : Frame) (file : ByteMemory) : Prop :=
  ∀ header ∈ loads file, SegmentLoaded mem t file header

theorem loadElf_image (binary : W64) (user : Bool) (ready : LoadReady h roots ram mirror pageTable t file)
    (formed : WellFormed file) (fits : ImageFits file) :
    Yields h (loadElf (hosted file binary pageTable) binary binary user) fun _ h' =>
      ImageLoaded h'.core.mem t file := by
  rw [loadElf_hosted]
  have asked : ∀ header ∈ loads file, ∀ i < segmentPages file header, ∃ header' ∈ loads file,
      ∃ j < segmentPages file header', pageAt (segmentBase file header) i = pageAt (segmentBase file header') j :=
    fun header member i below => ⟨header, member, i, below, rfl⟩
  refine (placeSegments_yields ready.hosting formed fits.segments asked ready.off fits.apart ready.series
    ready.stock ready.enough).mono ?_
  exact fun _ _ done => done.2

end Loading

section Pages

open Virtual (pairCore pairRoots pairMem lowFrames)

/-- A machine with frames to spare, whose next series starts at frame 30. -/
def pairHost : Host :=
  ⟨⟨pairCore [5#40, 6#40, 7#40, 8#40, 9#40, 10#40, 11#40, 12#40, 13#40, 14#40, 15#40, 16#40], [], []⟩, [30#40]⟩

theorem pair_row : pairMem 1#40 = Virtual.bootMem 1#40 := by
  funext i
  simp [pairMem]

theorem pair_tidy (supply : List Frame) : Tidy (pairCore supply) := by
  intro xs g i path high head present
  rcases Virtual.pair_kernel path with ⟨rfl, rfl⟩ | ⟨rfl, rfl⟩
  · have same : (pairCore supply).mem 1#40 = Virtual.bootMem 1#40 := pair_row
    rw [same] at present ⊢
    exact Virtual.boot_tidy [] 1#40 i rfl high head present
  · exact absurd rfl head

theorem pair_room {supply : List Frame} {v : W64} (inside : Virtual.canonical (pageNumber v) = true)
    (outside : getPl4Index v ≠ recurseActive) : Room (pairCore supply) 3#40 v := by
  refine ⟨inside, outside, ?_⟩
  have absent : pairMem 3#40 (getPl4Index v) = 0#64 := by simp [pairMem, Virtual.bootMem, outside]
  show plain pairMem 3#40 (directories v) = true
  rw [directories, plain, absent]
  rfl

theorem pair_hosting {wanted : W64 → Prop}
    (inside : ∀ v, wanted v → Virtual.canonical (pageNumber v) = true ∧ getPl4Index v ≠ recurseActive) :
    Hosting pairHost.core pairRoots lowFrames 2#40 0x3000#64 3#40 wanted where
  family := Virtual.pair_family (by decide) (by simp)
  tidy := pair_tidy _
  names := ⟨by decide, by decide, .inr (.inl rfl)⟩
  rooms v asked := pair_room (inside v asked).1 (inside v asked).2
  window f low := by
    apply pair_room (Virtual.memAddress_canonical low)
    rw [Virtual.memAddress_slot low]
    decide

theorem pair_stock : Stock pairHost.core.mem pairRoots lowFrames (row 30#40 2 ++ pairHost.core.supply) := by
  have family : Family (pairCore (row 30#40 2 ++ pairHost.core.supply)) pairRoots lowFrames 2#40 :=
    Virtual.pair_family (by decide) (by simp [row, List.range_succ, pairHost, pairCore, Host.core])
  exact ⟨family.nodup, family.stocked⟩

/-- A file of one segment, of which one page at 4 MiB is mapped. -/
structure OnePage (file : ByteMemory) (header : W64) : Prop where
  loads : loads file = [header]
  pages : segmentPages file header = 1
  base : segmentBase file header = 0x400000#64

theorem OnePage.ready {file : ByteMemory} {header : W64} (one : OnePage file header) :
    LoadReady pairHost pairRoots lowFrames 2#40 0x3000#64 3#40 file := by
  have ⟨only, pages, base⟩ := one
  have place : ∀ i < segmentPages file header, pageAt (segmentBase file header) i = 0x400000#64 := by
    intro i below
    rw [pages] at below
    rw [base, Nat.lt_one_iff.mp below, Virtual.pageAt_zero]
  constructor
  · apply pair_hosting
    rintro v ⟨header', member, i, below, rfl⟩
    rw [only, List.mem_singleton] at member
    subst member
    rw [place i below]
    decide
  · intro header' member i below
    rw [only, List.mem_singleton] at member
    subst member
    rw [place i below]
    decide
  · rw [only]
    exact Nat.le_refl 1
  · have frames : granted file [header] pairHost.series = row 30#40 2 := by
      show row 30#40 (segmentPages file header + 1) ++ [] = row 30#40 2
      rw [pages, List.append_nil]
    rw [only, frames]
    exact pair_stock
  · rw [only, List.map_singleton, List.sum_singleton, segmentCost, pages]
    decide

theorem smallElf_fields : loads (alone 0#64 smallElf) = [64#64] ∧
    segmentPages (alone 0#64 smallElf) 64#64 = 1 ∧ segmentBase (alone 0#64 smallElf) 64#64 = 0x400000#64 ∧
    memSize (alone 0#64 smallElf) 64#64 = 8#64 ∧ fileSize (alone 0#64 smallElf) 64#64 = 8#64 ∧
    fileOffset (alone 0#64 smallElf) 64#64 = 120#64 ∧ vaddr (alone 0#64 smallElf) 64#64 = 0x400078#64 := by
  decide +kernel

theorem loadElf_image_small :
    Yields pairHost (loadElf (hosted (alone 0#64 smallElf) 0x200000#64 0x3000#64) 0x200000#64 0x200000#64 true)
      fun _ h' => ImageLoaded h'.core.mem 3#40 (alone 0#64 smallElf) := by
  have ⟨only, pages, base, memory, stored, offset, place⟩ := smallElf_fields
  refine loadElf_image 0x200000#64 true (OnePage.ready ⟨only, pages, base⟩) ?_ ⟨?_, ?_⟩
  · intro header member
    rw [only, List.mem_singleton] at member
    subst member
    constructor
    · rw [memory, stored]
    · rw [place, offset]
      decide
  · intro header member
    rw [only, List.mem_singleton] at member
    subst member
    constructor
    · rw [memory]
      decide
    · rw [stored]
      decide
    · rw [memory, place]
      decide
  · rw [only]
    exact List.pairwise_singleton _ _

/-- A file whose segment of 16 bytes runs over the end of its first page. Zeros follow the headers. -/
def crossingElf : List Byte := elfHeader 64 1 ++ loadHeader 0xff8 0x400ff8 16

theorem crossingElf_fields : loads (alone 0#64 crossingElf) = [64#64] ∧
    segmentPages (alone 0#64 crossingElf) 64#64 = 1 ∧ segmentBase (alone 0#64 crossingElf) 64#64 = 0x400000#64 ∧
    memSize (alone 0#64 crossingElf) 64#64 = 16#64 ∧ fileSize (alone 0#64 crossingElf) 64#64 = 16#64 ∧
    fileOffset (alone 0#64 crossingElf) 64#64 = 0xff8#64 ∧ vaddr (alone 0#64 crossingElf) 64#64 = 0x400ff8#64 ∧
    copied (alone 0#64 crossingElf) 64#64 = 16 := by
  decide +kernel

/-- Its last 8 bytes are not mapped. -/
theorem loadElf_crossing : LoadReady pairHost pairRoots lowFrames 2#40 0x3000#64 3#40 (alone 0#64 crossingElf) ∧
    WellFormed (alone 0#64 crossingElf) ∧
    Yields pairHost (loadElf (hosted (alone 0#64 crossingElf) 0x200000#64 0x3000#64) 0x200000#64 0x200000#64 true)
      fun _ h' => ¬ ImageLoaded h'.core.mem 3#40 (alone 0#64 crossingElf) := by
  have ⟨only, pages, base, memory, stored, offset, place, whole⟩ := crossingElf_fields
  have ready := OnePage.ready ⟨only, pages, base⟩
  refine ⟨ready, ?_, ?_⟩
  · intro header member
    rw [only, List.mem_singleton] at member
    subst member
    constructor
    · rw [memory, stored]
    · rw [place, offset]
      decide
  have here : 64#64 ∈ loads (alone 0#64 crossingElf) := by
    rw [only]
    exact List.mem_singleton_self _
  have stock := ready.stock
  rw [only] at stock
  have placed := @placeSegment_yields (alone 0#64 crossingElf) 64#64 0x200000#64 true pairHost pairRoots lowFrames
    2#40 3#40 30#40 0x3000#64 _ [] ready.hosting (by rw [regionSize_eq, pages, whole]; decide)
    (granted_unused stock).1 rfl (fun i below => ⟨64#64, here, i, below, rfl⟩) (ready.off _ here)
    (by rw [segmentCost, pages]; decide)
  rw [loadElf_hosted, only]
  refine placed.bind ?_
  intro _ h' done
  refine .pure fun image => ?_
  have ⟨_, _, _, changes⟩ := done
  have missing : walk h'.core.mem 3#40 0x401#52 = none := by
    rw [changes.others _ (by decide) ?_]
    · decide +kernel
    · intro touched
      rcases touched with window | ⟨i, below, same⟩
      · exact absurd window (by decide)
      · rw [pages] at below
        rw [base, Nat.lt_one_iff.mp below] at same
        exact absurd same (by decide)
  have read := image 64#64 here 8 (by rw [memory]; decide)
  have page : pageNumber (0x400ff8#64 + BitVec.ofNat 64 8) = 0x401#52 := by decide
  rw [place, readByte, page, missing] at read
  cases read

end Pages

end Neutrino.Loader
