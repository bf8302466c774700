import Neutrino.Virtual.Creation
import Neutrino.Virtual.Processors

namespace Neutrino.Virtual

open Library

section Boot

theorem boot_separated : Separated branches bootMem 3 {1#40} Lower where
  path {r r' f xs ys} member member' first second := by
    cases Set.mem_singleton_iff.mp member
    cases Set.mem_singleton_iff.mp member'
    exact (boot_space boot_spare).tree xs ys f first second
  root {r r' f xs} member member' _ _ _ := by
    rw [Set.mem_singleton_iff.mp member, Set.mem_singleton_iff.mp member']

theorem boot_family : Family (bootCore.withSupply []) {1#40} lowFrames 2#40 where
  initialized := rfl
  active := rfl
  inside := by
    rintro r rfl
    exact (by decide : (1#40).toNat < 2 ^ 27)
  selves := by
    rintro r rfl
    exact boot_active
  perm := boot_perm
  mirrored f inside := boot_mirrored inside
  separated := boot_separated
  nodup := List.nodup_nil
  stocked := nofun

theorem boot_tidy : Tidy (bootCore.withSupply []) := by
  intro xs g i path high head present
  rcases boot_tables path with ⟨rfl, rfl⟩ | ⟨rfl, rfl⟩
  · have entries : ∀ i, isPresent (bootMem 1#40 i) = true →
        isHuge (bootMem 1#40 i) = false ∧ isEntry (bootMem 1#40 i) = true := by decide +kernel
    exact entries i present
  · exact absurd rfl head

end Boot

inductive SpaceCall
  | newPageTable
  | edit (call : TableCall)
  | allocateHeap (blocks : Nat) (user : Bool)
  | destroyPageTable (table : W64)

/-- The machine while the kernel's own space is active, with the spaces that are in use. -/
structure World where
  machine : Machine
  live : Set Frame

namespace World

def mem (s : World) : Mem := s.machine.core.mem

def active (s : World) : Frame := s.machine.core.cr3

def target (s : World) (table : W64) : Frame := s.machine.core.target table

/-- The active space is looked after even when its table has been destroyed. -/
def roots (s : World) : Set Frame := insert s.active s.live

/-- An address that the calls may map or unmap in the space `t`. -/
structure Allowed (s : World) (t : Frame) (v : W64) : Prop where
  outside : getPl4Index v ≠ recurseActive ∧ getPl4Index v ≠ recurseOther
  way : plain s.mem t (directories v) = true

/-- One call, with the frames that the allocator has for it. An edit may be made by any processor with
    CR0.WP clear; the other calls use no page of the gate. -/
inductive Step (ram : Set Frame) (s : World) : SpaceCall × List Frame → World → Prop
  | newPageTable {supply : List Frame} {address : W64} {m : Machine} (stock : Stock s.mem s.roots ram supply)
    (done : Virtual.newPageTable (frameAddress s.active) (s.machine.withSupply supply) = some (address, m)) :
    Step ram s (.newPageTable, supply) ⟨m, insert (frameOf address) s.live⟩
  | edit {supply : List Frame} {call : TableCall} {m : Machine} (cpu : Processor) (off : cpu.writeProtect = false)
    (stock : Stock s.mem s.roots ram supply) (aligned : frameAddress (frameOf call.table) = call.table)
    (member : s.target call.table ∈ s.roots) (allowed : s.Allowed (s.target call.table) call.virtAddr)
    (supplied : call.Supplied (s.machine.withSupply supply))
    (done : @TableCall.exec cpu call (s.machine.withSupply supply) = some ((), m)) :
    Step ram s (.edit call, supply) ⟨m, s.live⟩
  | allocateHeap {supply : List Frame} {blocks : Nat} {user : Bool} {va : W64} {m : Machine}
    (stock : Stock s.mem s.roots ram supply) (allowed : ∀ i < blocks, s.Allowed s.active (blockAt va i))
    (done : vmmAllocateHeap blocks user (s.machine.withSupply supply) = some (va, m)) :
    Step ram s (.allocateHeap blocks user, supply) ⟨m, s.live⟩
  | destroyPageTable {supply : List Frame} {f : Frame} {m : Machine} (stock : Stock s.mem s.roots ram supply)
    (member : f ∈ s.live)
    (done : Virtual.destroyPageTable (frameAddress s.active) (frameAddress f) (s.machine.withSupply supply) =
      some ((), m)) :
    Step ram s (.destroyPageTable (frameAddress f), supply) ⟨m, s.live \ {f}⟩

/-- The TLB holds nothing out of date for the edit of an inactive space. -/
def Coherent (s : World) : SpaceCall → Prop
  | .edit call => s.target call.table ≠ s.active → call.Coherent s.machine
  | .newPageTable | .allocateHeap .. | .destroyPageTable _ => True

def CoherentStep (ram : Set Frame) (s : World) (label : SpaceCall × List Frame) (s' : World) : Prop :=
  s.Coherent label.1 ∧ s.Step ram label s'

/-- The kernel's space alone, as `init_vmm` leaves it. -/
structure Booted (s : World) (ram : Set Frame) (mirror : Frame) : Prop where
  alone : s.live = {s.active}
  family : Family s.machine.core {s.active} ram mirror
  tidy : Tidy s.machine.core

structure Inv (s : World) (ram : Set Frame) (mirror : Frame) : Prop where
  family : Family s.machine.core s.roots ram mirror
  tidy : Tidy s.machine.core

variable {s s' : World} {ram : Set Frame} {mirror : Frame} {call : TableCall} {supply : List Frame}
  {label : SpaceCall × List Frame} {labels : List (SpaceCall × List Frame)} {m : Machine}

theorem Booted.inv (booted : s.Booted ram mirror) : s.Inv ram mirror := by
  refine ⟨?_, booted.tidy⟩
  rw [roots, booted.alone, Set.insert_eq_of_mem (Set.mem_singleton _)]
  exact booted.family

section Steps

variable (inv : s.Inv ram mirror)
include inv

theorem Inv.of_edits {t : Frame} {live : Set Frame} {c : Core} {freed : List W64}
    (stock : Stock s.mem s.roots ram supply) (member : t ∈ s.roots)
    (edits : Edits t (s.machine.core.withSupply supply) c) (core : m.core = { c with freed := freed })
    (fewer : live ⊆ s.live) : Inv ⟨m, live⟩ ram mirror := by
  have stocked := inv.family.withSupply stock
  have root : m.core.cr3 = s.active := by
    rw [core]
    exact edits.cr3
  have below : roots ⟨m, live⟩ ⊆ s.roots := by
    rw [roots, active, root]
    exact Set.insert_subset_insert fewer
  have later := (stocked.edits member edits).keep below (by rw [roots, active, core]; exact .inl rfl) freed
  rw [← core] at later
  refine ⟨later, ?_⟩
  have tidy := stocked.edits_tidy member edits inv.tidy
  rw [core]
  exact tidy

theorem Inv.exec_edits [Processor] (off : Processor.writeProtect = false) (coherent : s.Coherent (.edit call))
    (stock : Stock s.mem s.roots ram supply) (aligned : frameAddress (frameOf call.table) = call.table)
    (member : s.target call.table ∈ s.roots) (allowed : s.Allowed (s.target call.table) call.virtAddr)
    (supplied : call.Supplied (s.machine.withSupply supply))
    (done : call.exec (s.machine.withSupply supply) = some ((), m)) :
    Edits (s.target call.table) (s.machine.core.withSupply supply) m.core := by
  have stocked := inv.family.withSupply stock
  replace done := exec_walked (m := s.machine.withSupply supply) aligned (stocked.ready member)
    (stocked.editable member allowed.outside.1 allowed.way) off supplied allowed.outside.2 coherent done
  cases call with
  | mapPage table physAddr virtAddr prop =>
    exact Family.vmmMapPage_edits (m := s.machine.withSupply supply) stocked aligned member
      allowed.outside.1 allowed.way done
  | unmapPage table virtAddr =>
    obtain ⟨res, done⟩ := discard_some done
    exact Family.vmmUnmapPage_edits (m := s.machine.withSupply supply) stocked aligned member
      allowed.outside.1 allowed.way done

theorem Inv.step (coherent : s.Coherent label.1) (taken : s.Step ram label s') : s'.Inv ram mirror := by
  have active : s.active ∈ s.roots := .inl rfl
  cases taken with
  | @newPageTable supply address m stock done =>
    have stocked := inv.family.withSupply stock
    obtain ⟨root, family, tidy⟩ := Family.newPageTable_family (m := s.machine.withSupply supply) stocked inv.tidy done
    refine ⟨?_, tidy⟩
    have same : roots ⟨m, insert (frameOf address) s.live⟩ = insert (frameOf address) s.roots := by
      rw [roots, roots, World.active, root, Set.insert_comm]
      rfl
    rw [same]
    exact family
  | @edit supply call m cpu off stock aligned member allowed supplied done =>
    exact inv.of_edits stock member (inv.exec_edits off coherent stock aligned member allowed supplied done) rfl subset_rfl
  | @allocateHeap supply blocks user va m stock allowed done =>
    have stocked := inv.family.withSupply stock
    obtain ⟨f, rest, first, edits⟩ := Family.vmmAllocateHeap_edits (m := s.machine.withSupply supply) stocked
      inv.tidy blocks user va m done fun i inside => ⟨(allowed i inside).outside.1, (allowed i inside).way⟩
    obtain rfl : supply = f :: rest := first
    have left : Stock s.mem s.roots ram rest :=
      ⟨(List.nodup_cons.mp stock.nodup).2, fun h member => stock.unused h (List.mem_cons_of_mem f member)⟩
    exact inv.of_edits left active edits rfl subset_rfl
  | @destroyPageTable supply f m stock member done =>
    have stocked := inv.family.withSupply stock
    have small := (inv.family.mirrored f (inv.family.inside (.inr member))).small
    obtain ⟨c, freed, edits, core⟩ := Family.destroyPageTable_edits (m := s.machine.withSupply supply) stocked
      inv.tidy small () m done
    exact inv.of_edits stock active edits core fun _ kept => kept.1

theorem Inv.disjoint {r r' f f' : Frame} {i j : Index} {xs ys : List Index} (member : r ∈ s.roots)
    (member' : r' ∈ s.roots) (other : r ≠ r') (low : i.toNat < 256) (low' : j.toNat < 256)
    (first : follow hardware s.mem 3 r (i :: xs) = some f)
    (second : follow hardware s.mem 3 r' (j :: ys) = some f') : f ≠ f' := by
  rintro rfl
  have lower : ∀ {k : Index}, k.toNat < 256 → k ≠ recurseActive := by
    rintro k low rfl
    exact absurd low (by decide)
  rw [← follow_hardware (lower low)] at first
  rw [← follow_hardware (lower low')] at second
  cases inv.family.separated.path member member' first second
  refine other (inv.family.separated.root member member' first second ?_)
  intro k head
  cases head
  exact low

end Steps

theorem run_inv (booted : s.Booted ram mirror) (run : Run (CoherentStep ram) s labels s') : s'.Inv ram mirror := by
  have preserved : ∀ s label s', Inv s ram mirror → CoherentStep ram s label s' → Inv s' ram mirror :=
    fun _ _ _ inv taken => inv.step taken.1 taken.2
  exact run.invariant preserved booted.inv

theorem user_halves_isolated (booted : s.Booted ram mirror) (run : Run (CoherentStep ram) s labels s') :
    (∀ r ∈ s'.live, ∀ r' ∈ s'.live, r ≠ r' → ∀ i j : Index, i.toNat < 256 → j.toNat < 256 →
      ∀ xs ys f f', follow hardware s'.mem 3 r (i :: xs) = some f →
        follow hardware s'.mem 3 r' (j :: ys) = some f' → f ≠ f') ∧
    ∀ call supply s'', s'.CoherentStep ram (.edit call, supply) s'' → ∀ r ∈ s'.live, r ≠ s'.target call.table →
      ∀ q, (slotOf q).toNat < 256 → walk s''.mem r q = walk s'.mem r q := by
  have inv := run_inv booted run
  refine ⟨?_, ?_⟩
  · intro r member r' member' other i j low low' xs ys f f' first second
    exact inv.disjoint (.inr member) (.inr member') other low low' first second
  · intro call supply s'' ⟨coherent, taken⟩ r member other q low
    cases taken with
    | edit cpu off stock aligned inside allowed supplied done =>
      have edits := inv.exec_edits off coherent stock aligned inside allowed supplied done
      exact (inv.family.withSupply stock).edits_lower inside (.inr member) other edits low

section Tenants

variable {f : Frame} {rest : List Frame} {c : Core} {table physAddr v : W64} {prop : PageProperties}

theorem Inv.stock (inv : s.Inv ram mirror) : Stock s.mem s.roots ram s.machine.core.supply :=
  ⟨inv.family.nodup, inv.family.stocked⟩

theorem Inv.newPageTable_to (inv : s.Inv ram mirror) (stock : Stock s.mem s.roots ram (f :: rest))
    (taken : mapPage s.active (frameAddress f) (getMemAddress (frameAddress f)) pageKernelWrite
      (s.machine.core.withSupply rest) = some ((), c)) (enough : 3 ≤ rest.length) :
    ∃ m, CoherentStep ram s (.newPageTable, f :: rest) ⟨m, insert f s.live⟩ ∧ m.core = c.adopt f := by
  have stocked := inv.family.withSupply stock
  obtain ⟨m, done⟩ := Family.newPageTable_total (m := s.machine.withSupply (f :: rest)) stocked inv.tidy rfl enough
  obtain ⟨f', rest', c', supply, written, -, core⟩ := Family.newPageTable_spec (m := s.machine.withSupply (f :: rest))
    stocked inv.tidy done
  obtain ⟨rfl, rfl⟩ := List.cons.inj supply
  have same : c' = c := (Prod.mk.inj (Option.some.inj (written.symm.trans taken))).2
  have step : s.Step ram (.newPageTable, f :: rest) ⟨m, insert (frameOf (frameAddress f)) s.live⟩ :=
    .newPageTable stock done
  rw [frameOf_frameAddress] at step
  exact ⟨m, ⟨trivial, step⟩, by rw [core, same]⟩

theorem coherentBelow_absent {m : Machine} {t : Frame} (absent : isPresent (m.core.mem t (getPl4Index v)) = false) :
    CoherentBelow m t (directories v) := by
  intro xs g h nonempty inside reached _
  obtain ⟨i, ys, rfl⟩ := List.exists_cons_of_ne_nil nonempty
  obtain rfl : i = getPl4Index v := (List.cons_prefix_cons.mp inside).1
  obtain ⟨_, here, -⟩ := follow_cons_some reached
  have present := (branches_table here).1.present
  rw [absent] at present
  cases present

theorem Inv.mapPage_to {live : Set Frame} {t : Frame} {c0 : Core} (inv : Inv ⟨m, live⟩ ram mirror)
    (physAddr v : W64) (prop : PageProperties) (core : m.core = c0) (other : frameAddress t ≠ 0#64)
    (member : t ∈ live) (outside : getPl4Index v ≠ recurseActive ∧ getPl4Index v ≠ recurseOther)
    (way : plain c0.mem t (directories v) = true) (absent : isPresent (c0.mem t (getPl4Index v)) = false)
    (supplied : (pathTables c0.mem t (directories v) c0.supply).length = 3)
    (taken : mapPage t physAddr v prop (c0.shut t) = some ((), c)) :
    ∃ m', CoherentStep ram ⟨m, live⟩ (.edit (.mapPage (frameAddress t) physAddr v prop), c0.supply) ⟨m', live⟩ ∧
      m'.core = c ∧ vmmMapPage (frameAddress t) physAddr v prop m = some ((), m') := by
  subst core
  have target : m.core.target (frameAddress t) = t := by
    rw [Core.target, if_neg other, frameOf_frameAddress]
  have aligned : frameAddress (frameOf (frameAddress t)) = frameAddress t := by rw [frameOf_frameAddress]
  have root : m.core.target (frameAddress t) ∈ roots ⟨m, live⟩ := by
    rw [target]
    exact .inr member
  have edit : Editable m.core (m.core.target (frameAddress t)) v := by
    refine inv.family.editable root outside.1 ?_
    rw [target]
    exact way
  rw [← target] at taken supplied way absent
  obtain ⟨⟨⟩, m', done, core, -⟩ := (vmmMapPage_simulates physAddr prop aligned (inv.family.ready root) edit).yields taken
  refine ⟨m', ⟨fun _ => coherentBelow_absent absent, ?_⟩, core, done⟩
  exact .edit tableWalker rfl inv.stock aligned root ⟨outside, way⟩ supplied done

end Tenants

section Boot

def bootWorld : World := ⟨⟨bootCore.withSupply [], [], []⟩, {1#40}⟩

theorem bootWorld_booted : bootWorld.Booted lowFrames 2#40 := ⟨rfl, boot_family, boot_tidy⟩

def handedOut : List Frame := [3#40, 4#40, 5#40, 6#40, 7#40, 8#40, 9#40, 10#40, 11#40, 12#40, 13#40]

theorem boot_stock : Stock bootWorld.mem bootWorld.roots lowFrames handedOut := by
  have spare : Spare handedOut := by
    refine ⟨by decide, ?_⟩
    simp [handedOut]
  have roots : bootWorld.roots = {1#40} := Set.insert_eq_of_mem rfl
  refine ⟨spare.1, fun f member => ⟨(spare.2 f member).1, ?_⟩⟩
  rw [roots]
  rintro r rfl
  exact (boot_space spare).fresh f member

def mapped (t : Frame) (physAddr v : W64) (c : Core) : Core :=
  ((mapPage t physAddr v pageKernelWrite (c.shut t)).map (·.2)).getD c

/-- What two calls of `NewPageTable` leave, and then the mapping of a page at 0 in each new space. -/
def firstCore : Core := mapped 1#40 (frameAddress 3#40) (getMemAddress (frameAddress 3#40)) (bootCore.withSupply handedOut.tail)

def secondCore : Core :=
  mapped 1#40 (frameAddress 7#40) (getMemAddress (frameAddress 7#40)) ((firstCore.adopt 3#40).withSupply (handedOut.drop 5))

def thirdCore : Core := mapped 7#40 0x40000#64 0#64 (secondCore.adopt 7#40)

def fourthCore : Core := mapped 3#40 0x50000#64 0#64 thirdCore

def tenantCalls : List (SpaceCall × List Frame) :=
  [(.newPageTable, handedOut), (.newPageTable, handedOut.drop 4),
    (.edit (.mapPage (frameAddress 7#40) 0x40000#64 0#64 pageKernelWrite), handedOut.drop 5),
    (.edit (.mapPage (frameAddress 3#40) 0x50000#64 0#64 pageKernelWrite), handedOut.drop 8)]

theorem tenants : ∃ m, Run (CoherentStep lowFrames) bootWorld tenantCalls ⟨m, {7#40, 3#40, 1#40}⟩ ∧
    m.core = fourthCore ∧ (pageNumber (window recurseOther (directories 0#64)), 13#40) ∈ m.tlb := by
  have first : mapPage 1#40 (frameAddress 3#40) (getMemAddress (frameAddress 3#40)) pageKernelWrite
      (bootCore.withSupply handedOut.tail) = some ((), firstCore) := rfl
  obtain ⟨m1, made1, core1⟩ := bootWorld_booted.inv.newPageTable_to boot_stock first (by decide)
  have inv1 := bootWorld_booted.inv.step made1.1 made1.2
  have left1 : m1.core.supply = 7#40 :: handedOut.drop 5 := by
    rw [core1]
    decide +kernel
  have stock1 := inv1.stock
  simp only [left1] at stock1
  obtain ⟨m2, made2, core2⟩ := inv1.newPageTable_to (c := secondCore) stock1 (by simp only [active, core1]; rfl) (by decide)
  have inv2 := inv1.step made2.1 made2.2
  obtain ⟨m3, made3, core3, -⟩ := inv2.mapPage_to (t := 7#40) (c := thirdCore) 0x40000#64 0#64 pageKernelWrite
    core2 (by decide) (.inl rfl) (by decide) (by decide +kernel) (by decide +kernel) (by decide +kernel) rfl
  have inv3 := inv2.step made3.1 made3.2
  have way3 : plain thirdCore.mem 3#40 (directories 0#64) = true := by decide +kernel
  obtain ⟨m4, made4, core4, done⟩ := inv3.mapPage_to (t := 3#40) (c := fourthCore) 0x50000#64 0#64
    pageKernelWrite core3 (by decide) (.inr (.inl rfl)) (by decide) way3 (by decide +kernel) (by decide +kernel) rfl
  rw [show (secondCore.adopt 7#40).supply = handedOut.drop 5 by decide +kernel] at made3
  rw [show thirdCore.supply = handedOut.drop 8 by decide +kernel] at made4
  refine ⟨m4, .cons made1 (.cons made2 (.cons made3 (.cons made4 (.nil _)))), core4, ?_⟩
  have member : m3.core.target (frameAddress 3#40) ∈ roots ⟨m3, {7#40, 3#40, 1#40}⟩ := .inr (.inr (.inl rfl))
  have inactive : m3.core.target (frameAddress 3#40) ≠ m3.core.cr3 := by
    rw [core3]
    decide +kernel
  obtain ⟨pt, c, taken, held⟩ := vmmMapPage_leaves (by decide) (inv3.family.ready member) inactive
    (inv3.family.editable member (by decide) (by rw [core3]; exact way3)) (by decide) done
  have last : (descend (superProperties pageKernelWrite) 3#40 (directories 0#64)
      (thirdCore.setOther (pageCreate (frameAddress 3#40) pageKernelWrite))).map (·.1) = some 13#40 := by
    decide +kernel
  rw [← core3, show descend _ 3#40 _ _ = some (pt, c) from taken] at last
  cases last
  exact held

theorem user_halves_isolated_tenants : ∃ s', Run (CoherentStep lowFrames) bootWorld tenantCalls s' ∧
    3#40 ∈ s'.live ∧ 7#40 ∈ s'.live ∧ follow hardware s'.mem 3 3#40 [0#9] = some 11#40 ∧
    follow hardware s'.mem 3 7#40 [0#9] = some 8#40 ∧
    ∀ i j : Index, i.toNat < 256 → j.toNat < 256 → ∀ xs ys f f', follow hardware s'.mem 3 3#40 (i :: xs) = some f →
      follow hardware s'.mem 3 7#40 (j :: ys) = some f' → f ≠ f' := by
  obtain ⟨m, run, core, -⟩ := tenants
  refine ⟨_, run, .inr (.inl rfl), .inl rfl, ?_, ?_, ?_⟩
  · simp only [mem, core]
    decide +kernel
  · simp only [mem, core]
    decide +kernel
  · exact (user_halves_isolated bootWorld_booted run).1 3#40 (.inr (.inl rfl)) 7#40 (.inl rfl) (by decide)

/-- The window of the last table still shows that of the other space, which gets the page. -/
theorem user_halves_leak : bootWorld.Booted lowFrames 2#40 ∧ ∃ s' s'',
    Run (CoherentStep lowFrames) bootWorld tenantCalls s' ∧
    s'.Step lowFrames (.edit (.mapPage (frameAddress 7#40) 0x60000#64 0x1000#64 pageKernelWrite), []) s'' ∧
    3#40 ∈ s'.live ∧ 3#40 ≠ s'.target (frameAddress 7#40) ∧ walk s'.mem 3#40 1#52 = none ∧
    (walk s''.mem 3#40 1#52).map (·.frame) = some 0x60#40 := by
  obtain ⟨m, run, core, held⟩ := tenants
  have inv := run_inv bootWorld_booted run
  have stock : Stock m.core.mem (roots ⟨m, {7#40, 3#40, 1#40}⟩) lowFrames [] := ⟨List.nodup_nil, nofun⟩
  have stocked := inv.family.withSupply stock
  have member : m.core.target (frameAddress 7#40) ∈ roots ⟨m, {7#40, 3#40, 1#40}⟩ := .inr (.inl rfl)
  have way : plain m.core.mem 7#40 (directories 0x1000#64) = true := by
    rw [core]
    decide +kernel
  have inactive : m.core.target (frameAddress 7#40) ≠ m.core.cr3 := by
    rw [core]
    decide +kernel
  have chain : Chain m.core.mem 0x1000#64 7#40 8#40 9#40 10#40 := by
    rw [core]
    exact ⟨⟨by decide +kernel, by decide +kernel, by decide +kernel⟩,
      ⟨by decide +kernel, by decide +kernel, by decide +kernel⟩, ⟨by decide +kernel, by decide +kernel, by decide +kernel⟩⟩
  have apart : m.core.cr3 ≠ 13#40 := by
    rw [core]
    decide +kernel
  have held' : (pageNumber (window recurseOther (directories 0x1000#64)), 13#40) ∈ m.tlb := by
    rw [show directories 0x1000#64 = directories 0#64 by decide]
    exact held
  have aligned : frameAddress (frameOf (frameAddress 7#40)) = frameAddress 7#40 := by decide
  have outside : getPl4Index 0x1000#64 ≠ recurseActive := by decide
  have ready := stocked.ready member
  obtain ⟨⟨⟩, m', done, core'⟩ := vmmMapPage_lingers (m := m.withSupply []) 0x60000#64
    pageKernelWrite aligned ready inactive outside chain held' apart
  refine ⟨bootWorld_booted, _, ⟨m', {7#40, 3#40, 1#40}⟩, run, ?_, .inr (.inl rfl),
    show (3#40 : Frame) ≠ 7#40 by decide, ?_, ?_⟩
  · refine .edit (lingering (pageNumber (window recurseOther (directories 0x1000#64))) 13#40) rfl stock aligned member
      ⟨by decide, way⟩ ?_ done
    simp only [TableCall.Supplied, Machine.withSupply, Machine.withCore, Core.withSupply, core]
    decide +kernel
  · simp only [mem, core]
    decide +kernel
  · simp only [mem, core', Machine.withSupply, Machine.withCore, Core.withSupply, core]
    decide +kernel

end Boot

end World

end Neutrino.Virtual
