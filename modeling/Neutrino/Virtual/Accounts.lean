import Neutrino.Virtual.Bitmap
import Neutrino.Virtual.Isolation
import Neutrino.Virtual.Sharing

namespace Neutrino.Virtual

open Library

inductive MemoryCall
  | newPageTable
  | edit (call : TableCall)
  | freeMemory (table addr : W64) (blocks : Nat)
  | destroyPageTable (table : W64)

def Machine.stock (m : Machine) (supply : List Frame) : Machine :=
  m.withCore { m.core with supply := supply, freed := [] }

/-- The machine with the spaces in use and the frames that are marked in the physical bitmap. -/
structure Ledger where
  machine : Machine
  live : Set Frame
  used : Set Frame

namespace Ledger

def mem (s : Ledger) : Mem := s.machine.core.mem

def active (s : Ledger) : Frame := s.machine.core.cr3

def target (s : Ledger) (table : W64) : Frame := s.machine.core.target table

/-- The allocator has only frames that are not marked, at addresses of 32 bits. -/
def Unmarked (s : Ledger) (ram : Set Frame) (stock : List Frame) : Prop :=
  stock.Nodup ∧ ∀ f ∈ stock, f ∈ ram ∧ f ∉ s.used ∧ f.toNat < 2 ^ 20

/-- After code that took frames from `stock` first and then gave some back. -/
def settle (s : Ledger) (stock : List Frame) (m : Machine) : Ledger where
  machine := m
  live := s.live
  used := {f | (f ∈ s.used ∨ f ∈ stock ∧ f ∉ m.core.supply) ∧ ∀ a ∈ m.core.freed, ¬ Unmarks a 0 f}

/-- After `pmm_free_series`. -/
def release (s : Ledger) (physAddr : W64) (blocks : Nat) (m : Machine) : Ledger where
  machine := m
  live := s.live
  used := {f | f ∈ s.used ∧ ∀ i < blocks, ¬ Unmarks physAddr i f}

theorem unmarked_nil {s : Ledger} {ram : Set Frame} : s.Unmarked ram [] :=
  ⟨List.nodup_nil, fun _ member => absurd member List.not_mem_nil⟩

section Bitmap

variable {s : Ledger} {ram : Set Frame} {p p' : Physical.Pmm} {taken stock : List Frame} {m : Machine}

/-- What `pmm_alloc` hands out when the bitmap shows the marked frames. -/
theorem unmarked_handsOut (small : p.totalBlocks.toNat ≤ 2 ^ 20) (marks : Marks p s.used) (hands : HandsOut p stock p')
    (inside : ∀ f ∈ stock, f ∈ ram) : s.Unmarked ram stock := by
  obtain ⟨nodup, unused, -⟩ := hands.marks small marks
  exact ⟨nodup, fun f member => ⟨inside f member, unused f member⟩⟩

theorem settle_marks (small : p.totalBlocks.toNat ≤ 2 ^ 20) (marks : Marks p s.used) (hands : HandsOut p taken p')
    (apart : ∀ f ∈ taken, f ∉ m.core.supply) :
    Marks (m.core.freed.foldl Physical.pmmFree p') (s.settle (taken ++ m.core.supply) m).used := by
  have later := (hands.marks small marks).2.2.freedAll m.core.freed
  have same : ∀ f, (f ∈ taken ++ m.core.supply ∧ f ∉ m.core.supply) ↔ f ∈ taken := by
    intro f
    rw [List.mem_append]
    exact ⟨fun ⟨either, gone⟩ => either.resolve_right gone, fun took => ⟨.inl took, apart f took⟩⟩
  simp only [settle, same]
  exact later

theorem release_marks (marks : Marks p s.used) (physAddr : W64) (blocks : W32) :
    Marks (Physical.pmmFreeSeries p physAddr blocks) (s.release physAddr blocks.toNat m).used :=
  marks.freedSeries physAddr blocks

end Bitmap

/-- An edit by any processor with CR0.WP clear, with a frame for each table that is missing. -/
structure Edited (ram : Set Frame) (s : Ledger) (label : TableCall × List Frame) (s' : Ledger) : Prop where
  unmarked : s.Unmarked ram label.2
  aligned : frameAddress (frameOf label.1.table) = label.1.table
  member : s.target label.1.table ∈ s.live
  supplied : label.1.Supplied (s.machine.stock label.2)
  done : ∃ (cpu : Processor) (m : Machine), cpu.writeProtect = false ∧
    @TableCall.exec cpu label.1 (s.machine.stock label.2) = some ((), m) ∧ s' = s.settle label.2 m

def unmaps (table addr : W64) (blocks : Nat) (stocks : List (List Frame)) : List (TableCall × List Frame) :=
  ((List.range blocks).map fun i => TableCall.unmapPage table (blockAt addr i)).zip stocks

/-- `vmm_free_memory`. The frames of an early page may be handed out again for a later one, so each
    page has a stock of its own. -/
def Freed (edited : Ledger → TableCall × List Frame → Ledger → Prop) (s : Ledger) (table addr : W64)
    (blocks : Nat) (stocks : List (List Frame)) (s' : Ledger) : Prop :=
  stocks.length = blocks ∧ ∃ physAddr m s1 m1, vmmVirtToPhys table addr s.machine = some (physAddr, m) ∧
    Run edited { s with machine := m } (unmaps table addr blocks stocks) s1 ∧
    pmmFreeSeries physAddr blocks (s1.machine.stock []) = some ((), m1) ∧ s' = s1.release physAddr blocks m1

/-- One call, with what the allocator has for each of its parts. -/
inductive Step (ram : Set Frame) (edited : Ledger → TableCall × List Frame → Ledger → Prop) (s : Ledger) :
    MemoryCall × List (List Frame) → Ledger → Prop
  | newPageTable {stock : List Frame} {address : W64} {m : Machine} (unmarked : s.Unmarked ram stock)
    (done : Virtual.newPageTable (frameAddress s.active) (s.machine.stock stock) = some (address, m)) :
    Step ram edited s (.newPageTable, [stock]) { s.settle stock m with live := insert (frameOf address) s.live }
  | edit {call : TableCall} {stock : List Frame} {s' : Ledger} (taken : edited s (call, stock) s') :
    Step ram edited s (.edit call, [stock]) s'
  | freeMemory {table addr : W64} {blocks : Nat} {stocks : List (List Frame)} {s' : Ledger}
    (taken : Freed edited s table addr blocks stocks s') :
    Step ram edited s (.freeMemory table addr blocks, stocks) s'
  | destroyPageTable {f : Frame} {m : Machine} {stocks : List (List Frame)} {s' : Ledger} (member : f ∈ s.live)
    (switched : writeCr3 (frameAddress s.active) s.machine = some ((), m))
    (taken : Freed edited { s with machine := m, live := s.live \ {f} } (frameAddress s.active)
      (getMemAddress (frameAddress f)) 1 stocks s') :
    Step ram edited s (.destroyPageTable (frameAddress f), stocks) s'

/-- Every frame that an entry above the last level refers to, in a table of a space in use, is marked. -/
def Marked (s : Ledger) : Prop :=
  ∀ r ∈ s.live, ∀ xs g i h, follow branches s.mem 3 r xs = some g → xs.length ≤ 2 → Links s.mem g i h →
    h ∈ s.used

/-- The address is not that of a table or under a huge page, its unmapping leaves the tables below a
    PML4 entry that another space has too, and for an inactive space the TLB holds nothing out of date. -/
structure Careful (s : Ledger) (call : TableCall) : Prop where
  outside : getPl4Index call.virtAddr ≠ recurseActive ∧ getPl4Index call.virtAddr ≠ recurseOther
  way : plain s.mem (s.target call.table) (directories call.virtAddr) = true
  coherent : s.target call.table ≠ s.active → call.Coherent s.machine
  spares : ∀ table virtAddr, call = .unmapPage table virtAddr → Spares s.mem s.live (s.target table) virtAddr

/-- No bit that is cleared for what is given back as memory is that of a table of a space that stays
    in use. -/
def Sound (s : Ledger) : MemoryCall → Prop
  | .newPageTable | .edit _ => True
  | .freeMemory table addr blocks => ∀ physAddr m, vmmVirtToPhys table addr s.machine = some (physAddr, m) →
    ∀ i < blocks, ∀ r ∈ s.live, ∀ h, IsTable s.mem r h → ¬ Unmarks physAddr i h
  | .destroyPageTable table => frameOf table ≠ s.active ∧
    ∀ m physAddr m', writeCr3 (frameAddress s.active) s.machine = some ((), m) →
      vmmVirtToPhys (frameAddress s.active) (getMemAddress table) m = some (physAddr, m') →
      ∀ r ∈ s.live, r ≠ frameOf table → ∀ h, IsTable s.mem r h → ¬ Unmarks physAddr 0 h

/-- The kernel's space alone, with its tables marked and at addresses of 32 bits, as those that
    `pmm_alloc` hands out are. -/
structure Booted (s : Ledger) (ram : Set Frame) (mirror : Frame) : Prop where
  alone : s.live = {s.active}
  family : Family s.machine.core {s.active} ram mirror
  tidy : Tidy s.machine.core
  marked : s.Marked
  low : ∀ h, IsTable s.mem s.active h → h.toNat < 2 ^ 20

structure Inv (s : Ledger) (ram : Set Frame) (mirror : Frame) : Prop where
  family : Family s.machine.core s.live ram mirror
  tidy : Tidy s.machine.core
  branched : Branched s.mem s.live
  covered : ∀ r ∈ s.live, ∀ h, IsTable s.mem r h → h ∈ s.used ∧ h.toNat < 2 ^ 20

section Invariant

variable {s s' : Ledger} {ram : Set Frame} {mirror : Frame} {label : TableCall × List Frame} {stock : List Frame}
  {m : Machine} {c : Core}

theorem covered_of_marked (family : Family s.machine.core s.live ram mirror) (marked : s.Marked) :
    ∀ r ∈ s.live, ∀ h, IsTable s.mem r h → h ∈ s.used := by
  rintro r member h ⟨xs, path⟩
  rcases List.eq_nil_or_concat xs with rfl | ⟨ys, i, rfl⟩
  · cases path
    exact marked r member [] r recurseActive r rfl (Nat.zero_le 2) (family.selves r member)
  · rw [List.concat_eq_append] at path
    obtain ⟨g, above, found⟩ := follow_snoc_some path
    obtain ⟨links, low, -, -⟩ := branches_table found
    exact marked r member ys g i h above (by omega) links

theorem Booted.inv (booted : s.Booted ram mirror) : s.Inv ram mirror := by
  have family : Family s.machine.core s.live ram mirror := by
    rw [booted.alone]
    exact booted.family
  refine ⟨family, booted.tidy, ?_, fun r member h table => ⟨covered_of_marked family booted.marked r member h table, ?_⟩⟩
  · rw [booted.alone]
    exact .single s.mem s.active
  · rw [booted.alone] at member
    cases Set.mem_singleton_iff.mp member
    exact booted.low h table

theorem marked_of_covered (family : Family s.machine.core s.live ram mirror)
    (covered : ∀ r ∈ s.live, ∀ h, IsTable s.mem r h → h ∈ s.used) : s.Marked := by
  intro r member xs g i h path high links
  by_cases self : xs = [] ∧ i = recurseActive
  · obtain ⟨rfl, rfl⟩ := self
    cases path
    have same : h = r := links.frame.symm.trans (family.selves r member).frame
    rw [same]
    exact covered r member r ⟨[], rfl⟩
  · exact covered r member h ⟨_, follow_links path high (fun top same => self ⟨top, same⟩) links⟩

variable (inv : s.Inv ram mirror)
include inv

theorem Inv.stocked (unmarked : s.Unmarked ram stock) :
    Family (s.machine.stock stock).core s.live ram mirror := by
  have fresh : Stock s.mem s.live ram stock :=
    ⟨unmarked.1, fun f member => ⟨(unmarked.2 f member).1, fun r root table =>
      (unmarked.2 f member).2.1 (inv.covered r root f table).1⟩⟩
  exact (inv.family.withSupply fresh).keep subset_rfl inv.family.active []

theorem Inv.accounted (stock : List Frame) :
    Accounted {f | f ∈ s.used ∧ f.toNat < 2 ^ 20} s.live stock (s.machine.stock stock).core where
  below := List.Subset.refl stock
  tables r root h table := .inl (inv.covered r root h table)
  freed := nofun
  known := nofun

theorem Inv.settled {t : Frame} (unmarked : s.Unmarked ram stock) (member : t ∈ s.live)
    (edits : Edits t (s.machine.stock stock).core m.core)
    (accounted : Accounted {f | f ∈ s.used ∧ f.toNat < 2 ^ 20} s.live stock m.core) :
    (s.settle stock m).Inv ram mirror where
  family := (inv.stocked unmarked).edits member edits
  tidy := (inv.stocked unmarked).edits_tidy member edits inv.tidy
  branched := (inv.stocked unmarked).edits_branched inv.branched member edits
  covered r root h table := by
    have low : ∀ f, (f ∈ s.used ∧ f.toNat < 2 ^ 20) ∨ f ∈ stock → f.toNat < 2 ^ 20 := by
      rintro f (⟨-, low⟩ | new)
      · exact low
      · exact (unmarked.2 f new).2.2
    have origin := accounted.tables r root h table
    refine ⟨⟨origin.imp_left And.left, fun a given same => ?_⟩, low h (origin.imp_right And.left)⟩
    have frame : h = frameOf a := BitVec.eq_of_toNat_eq ((unmarks_low_iff (low _ (accounted.known a given))).mp same)
    exact (accounted.freed a given).2 r root (frame ▸ table)

theorem Inv.walked (careful : s.Careful label.1) (taken : s.Edited ram label s') :
    ∃ m, label.1.exec (s.machine.stock label.2) = some ((), m) ∧ s' = s.settle label.2 m := by
  obtain ⟨unmarked, aligned, member, supplied, cpu, m, off, done, rfl⟩ := taken
  have family := inv.stocked unmarked
  exact ⟨m, exec_walked (m := s.machine.stock label.2) aligned (family.ready member)
    (family.editable member careful.outside.1 careful.way) off supplied careful.outside.2 careful.coherent done, rfl⟩

theorem Inv.edited (careful : s.Careful label.1) (taken : s.Edited ram label s') : s'.Inv ram mirror := by
  obtain ⟨m, done, rfl⟩ := inv.walked careful taken
  obtain ⟨unmarked, aligned, member, -, -⟩ := taken
  obtain ⟨⟨outside, -⟩, way, -, spares⟩ := careful
  have family := inv.stocked unmarked
  have edit : Editable (s.machine.stock label.2).core (s.target label.1.table) label.1.virtAddr :=
    family.editable member outside way
  have ready := family.ready member
  obtain ⟨call, stock⟩ := label
  cases call with
  | mapPage table physAddr virtAddr prop =>
    have edits := Family.vmmMapPage_edits (m := s.machine.stock stock) family aligned member outside way done
    obtain ⟨⟨⟩, written, -⟩ := (vmmMapPage_simulates (m := s.machine.stock stock) physAddr prop aligned ready
      edit).source done
    exact inv.settled unmarked member edits
      (family.mapPage_accounted member (inv.accounted stock) (edit.shut ready.apart) written)
  | unmapPage table virtAddr =>
    obtain ⟨res, done⟩ := discard_some done
    have edits := Family.vmmUnmapPage_edits (m := s.machine.stock stock) family aligned member outside way done
    obtain ⟨⟨⟩, removed, -⟩ := (vmmUnmapPage_simulates (m := s.machine.stock stock) aligned ready edit).source done
    exact inv.settled unmarked member edits
      (family.removePage_accounted member inv.branched (inv.accounted stock) ready.apart edit
        (spares table virtAddr rfl) removed)

theorem Inv.unmapped {table virtAddr : W64} (careful : s.Careful (.unmapPage table virtAddr))
    (taken : s.Edited ram (.unmapPage table virtAddr, stock) s') {r h : Frame} (found : IsTable s'.mem r h) :
    IsTable s.mem r h := by
  obtain ⟨m, done, rfl⟩ := inv.walked careful taken
  obtain ⟨unmarked, aligned, member, -, -⟩ := taken
  obtain ⟨⟨outside, -⟩, way, -, -⟩ := careful
  have family := inv.stocked unmarked
  have ready := family.ready member
  have edit : Editable (s.machine.stock stock).core (s.target table) virtAddr := family.editable member outside way
  obtain ⟨res, done⟩ := discard_some done
  obtain ⟨⟨⟩, removed, -⟩ := (vmmUnmapPage_simulates (m := s.machine.stock stock) aligned ready edit).source done
  obtain ⟨-, -, -, -, -, -, -, -, fewer⟩ := removePage_spec (edit.shut ready.apart) removed
  obtain ⟨xs, path⟩ := found
  have before : follow branches (s.machine.stock stock).core.mem 3 r xs = some h := shut_follow (fewer.follow path)
  exact ⟨xs, before⟩

end Invariant

section Frees

variable {s s' : Ledger} {ram : Set Frame} {mirror : Frame} {labels : List (TableCall × List Frame)}
  {stocks : List (List Frame)} {table addr : W64} {blocks : Nat}

/-- The edits of runs in which each call is careful. -/
def CarefulEdit (ram : Set Frame) (s : Ledger) (label : TableCall × List Frame) (s' : Ledger) : Prop :=
  s.Careful label.1 ∧ s.Edited ram label s'

/-- What the unmappings of `vmm_free_memory` keep. -/
structure Shrunk (s : Ledger) (ram : Set Frame) (mirror : Frame) (s' : Ledger) : Prop where
  inv : s'.Inv ram mirror
  live : s'.live = s.live
  tables : ∀ r h, IsTable s'.mem r h → IsTable s.mem r h

theorem Inv.shrunk (inv : s.Inv ram mirror) (run : Run (CarefulEdit ram) s labels s')
    (only : ∀ label ∈ labels, ∃ table virtAddr, label.1 = .unmapPage table virtAddr) :
    s.Shrunk ram mirror s' := by
  have preserved : ∀ s1 label s2, s.Shrunk ram mirror s1 →
      (∃ table virtAddr, label.1 = .unmapPage table virtAddr) → CarefulEdit ram s1 label s2 →
      s.Shrunk ram mirror s2 := by
    rintro s1 ⟨call, stock⟩ s2 shrunk ⟨table, virtAddr, rfl⟩ ⟨careful, taken⟩
    refine ⟨shrunk.inv.edited careful taken, ?_, fun r h found => ?_⟩
    · rw [← shrunk.live]
      obtain ⟨-, -, -, -, cpu, m, -, -, rfl⟩ := taken
      rfl
    · exact shrunk.tables r h (shrunk.inv.unmapped careful taken found)
  exact run.invariant_on preserved only ⟨inv, rfl, fun _ _ found => found⟩

theorem Inv.freed (inv : s.Inv ram mirror)
    (apart : ∀ physAddr m, vmmVirtToPhys table addr s.machine = some (physAddr, m) →
      ∀ i < blocks, ∀ r ∈ s.live, ∀ h, IsTable s.mem r h → ¬ Unmarks physAddr i h)
    (taken : Freed (CarefulEdit ram) s table addr blocks stocks s') : s'.Inv ram mirror := by
  obtain ⟨-, physAddr, m, s1, m1, asked, run, given, rfl⟩ := taken
  have core : m.core = s.machine.core := vmmVirtToPhys_ensures table addr physAddr m asked
  have start : Inv { s with machine := m } ram mirror := by
    refine ⟨?_, ?_, ?_, ?_⟩
    · rw [core]
      exact inv.family
    · rw [core]
      exact inv.tidy
    · simp only [mem, core]
      exact inv.branched
    · simp only [mem, core]
      exact inv.covered
  have only : ∀ label ∈ unmaps table addr blocks stocks, ∃ table virtAddr, label.1 = .unmapPage table virtAddr := by
    intro label member
    obtain ⟨i, -, same⟩ := List.mem_map.mp (List.of_mem_zip member).1
    exact ⟨table, blockAt addr i, same.symm⟩
  obtain ⟨inv1, live, tables⟩ := start.shrunk run only
  simp only [mem, core] at tables
  rw [pmmFreeSeries_eq] at given
  cases given
  refine ⟨?_, inv1.tidy, inv1.branched, fun r root h found => ?_⟩
  · exact (inv1.stocked unmarked_nil).keep subset_rfl inv1.family.active _
  · obtain ⟨marked, low⟩ := inv1.covered r root h found
    refine ⟨⟨marked, fun i inside => apart physAddr m asked i inside r ?_ h (tables r h found)⟩, low⟩
    rw [← live]
    exact root

end Frees

/-- The calls of runs in which what is given back is no table in use. -/
def CarefulStep (ram : Set Frame) (s : Ledger) (label : MemoryCall × List (List Frame)) (s' : Ledger) : Prop :=
  s.Sound label.1 ∧ s.Step ram (CarefulEdit ram) label s'

section Steps

variable {s s' : Ledger} {ram : Set Frame} {mirror : Frame} {label : MemoryCall × List (List Frame)}
  {labels : List (MemoryCall × List (List Frame))} {stock : List Frame} {address : W64} {m : Machine}

theorem Inv.created (inv : s.Inv ram mirror) (unmarked : s.Unmarked ram stock)
    (done : Virtual.newPageTable (frameAddress s.active) (s.machine.stock stock) = some (address, m)) :
    Inv { s.settle stock m with live := insert (frameOf address) s.live } ram mirror := by
  have family := inv.stocked unmarked
  obtain ⟨-, later, tidy⟩ := Family.newPageTable_family (m := s.machine.stock stock) family inv.tidy done
  obtain ⟨f, rest, c, supply, written, rfl, core⟩ := Family.newPageTable_spec (m := s.machine.stock stock) family
    inv.tidy done
  have edit := Family.newPage_editable (m := s.machine.stock stock) family inv.tidy supply
  have edits := mapPage_edits edit written
  obtain ⟨taken, unused⟩ := family.taken supply
  have kept := taken.edits family.active edits
  have fresh := Family.taken_fresh (m := s.machine.stock stock) family supply edits
  have branched := taken.edits_branched inv.branched family.active edits
  obtain rfl : stock = f :: rest := supply
  have start : Accounted {f | f ∈ s.used ∧ f.toNat < 2 ^ 20} s.live (f :: rest)
      ((s.machine.stock (f :: rest)).core.withSupply rest) :=
    ⟨List.subset_cons_self f rest, fun r root h table => .inl (inv.covered r root h table),
      fun a member => absurd member List.not_mem_nil, fun a member => absurd member List.not_mem_nil⟩
  have same : ((s.machine.stock (f :: rest)).core.withSupply rest).shut s.active =
      (s.machine.stock (f :: rest)).core.withSupply rest := if_pos rfl
  have accounted : Accounted {f | f ∈ s.used ∧ f.toNat < 2 ^ 20} s.live (f :: rest) c := by
    rw [← same] at edit written
    exact taken.mapPage_accounted family.active start edit written
  have spare : f ∉ c.supply := fun left => unused (edits.supply left)
  have freed : c.freed = [] := mapPage_freed edit written
  rw [frameOf_frameAddress] at later ⊢
  refine ⟨later, tidy, ?_, ?_⟩
  · simp only [mem, settle, core]
    exact kept.adopt_branched branched fresh
  · simp only [mem, settle, core]
    rintro r root h ⟨xs, path⟩
    have origin : (h ∈ s.used ∧ h.toNat < 2 ^ 20) ∨ h ∈ f :: rest ∧ h ∉ c.supply := by
      rcases root with rfl | root
      · cases xs with
        | nil =>
          cases path
          exact .inr ⟨List.mem_cons_self, spare⟩
        | cons j ys => exact accounted.tables c.cr3 kept.active h ⟨_, (kept.adopt_below fresh path).2⟩
      · exact accounted.tables r root h ⟨xs, (adopt_follow (fresh r root)).mp path⟩
    refine ⟨⟨origin.imp_left And.left, ?_⟩, ?_⟩
    · rw [Core.adopt, Core.withMem, freed]
      exact fun a member => absurd member List.not_mem_nil
    · rcases origin with ⟨-, low⟩ | ⟨new, -⟩
      · exact low
      · exact (unmarked.2 h new).2.2

theorem Inv.step (inv : s.Inv ram mirror) (sound : s.Sound label.1) (taken : s.Step ram (CarefulEdit ram) label s') :
    s'.Inv ram mirror := by
  cases taken with
  | newPageTable unmarked done => exact inv.created unmarked done
  | edit taken => exact inv.edited taken.1 taken.2
  | freeMemory taken => exact inv.freed sound taken
  | @destroyPageTable f m stocks _ member switched taken =>
    obtain ⟨other, apart⟩ := sound
    rw [frameOf_frameAddress] at other apart
    have core : m.core = s.machine.core := by
      cases switched
      simp [active, frameOf_frameAddress]
    have start : Inv { s with machine := m, live := s.live \ {f} } ram mirror := by
      have kept : s.active ∈ s.live \ {f} := ⟨inv.family.active, fun same => other same.symm⟩
      refine ⟨?_, ?_, ?_, ?_⟩
      · rw [core]
        exact inv.family.keep (fun _ root => root.1) kept s.machine.core.freed
      · rw [core]
        exact inv.tidy
      · simp only [mem, core]
        intro r root r' root'
        exact inv.branched r root.1 r' root'.1
      · simp only [mem, core]
        exact fun r root => inv.covered r root.1
    refine start.freed ?_ taken
    intro physAddr m' asked i inside r root
    obtain rfl : i = 0 := by omega
    simp only [mem, core]
    exact apart m physAddr m' switched asked r root.1 root.2

end Steps

section Boot

/-- An address in slot 300, which spaces made later share. -/
def sharedAddr : W64 := 0xffff960000000000#64

/-- The kernel's space with a page at `sharedAddr`. -/
def mappedCore300 : Core :=
  ((mapPage 1#40 0x9000#64 sharedAddr pageKernelWrite (bootCore.withSupply [3#40, 4#40, 5#40])).map
    (·.2)).getD bootCore

theorem mappedCore300_eq : mapPage 1#40 0x9000#64 sharedAddr pageKernelWrite
    (bootCore.withSupply [3#40, 4#40, 5#40]) = some ((), mappedCore300) := rfl

theorem boot_supplied : Family (bootCore.withSupply [3#40, 4#40, 5#40]) {1#40} lowFrames 2#40 := by
  refine boot_family.withSupply ⟨by decide, fun f member => ⟨(boot_spare.2 f member).1, ?_⟩⟩
  rintro r rfl
  exact (boot_space boot_spare).fresh f member

theorem mappedCore300_edits : Edits 1#40 (bootCore.withSupply [3#40, 4#40, 5#40]) mappedCore300 :=
  mapPage_edits (boot_supplied.editable rfl (by decide) (by decide)) mappedCore300_eq

def sharedLedger : Ledger := ⟨⟨mappedCore300, [], []⟩, {1#40}, {f | f.toNat < 10}⟩

theorem sharedLedger_booted : sharedLedger.Booted lowFrames 2#40 := by
  have family : Family sharedLedger.machine.core {1#40} lowFrames 2#40 :=
    boot_supplied.edits rfl mappedCore300_edits
  have few : ∀ h, IsTable sharedLedger.mem 1#40 h → h.toNat < 10 := by
    intro h table
    rcases boot_supplied.edits_tables rfl rfl mappedCore300_edits table with ⟨xs, path⟩ | new
    · have small : (1#40).toNat < 10 ∧ (2#40).toNat < 10 := by decide
      rcases boot_tables path with ⟨-, rfl⟩ | ⟨-, rfl⟩
      · exact small.1
      · exact small.2
    · have small : ∀ f ∈ [3#40, 4#40, 5#40], f.toNat < 10 := by simp
      exact small h new
  refine ⟨rfl, family, boot_supplied.edits_tidy rfl mappedCore300_edits boot_tidy, marked_of_covered family ?_, ?_⟩
  · rintro r rfl h table
    exact few h table
  · intro h table
    exact Nat.lt_trans (few h table) (by decide)

theorem shared_unmarked : sharedLedger.Unmarked lowFrames [10#40, 11#40, 12#40, 13#40] := by
  have frames : ∀ f ∈ [10#40, 11#40, 12#40, 13#40], f.toNat < 2 ^ 27 ∧ ¬ f.toNat < 10 ∧ f.toNat < 2 ^ 20 := by simp
  exact ⟨by decide, frames⟩

end Boot

section Runs

variable {s s' : Ledger} {ram : Set Frame} {mirror : Frame} {labels : List (MemoryCall × List (List Frame))}

theorem tables_marked (booted : s.Booted ram mirror) (run : Run (CarefulStep ram) s labels s') : s'.Marked := by
  have preserved : ∀ s label s', Inv s ram mirror → CarefulStep ram s label s' → Inv s' ram mirror :=
    fun _ _ _ inv taken => inv.step taken.1 taken.2
  have inv := run.invariant preserved booted.inv
  exact marked_of_covered inv.family fun r member h table => (inv.covered r member h table).1

/-- The kernel's space after `NewPageTable`. -/
def grownCore300 : Core :=
  ((mapPage 1#40 (frameAddress 10#40) (getMemAddress (frameAddress 10#40)) pageKernelWrite
    ⟨mappedCore300.mem, 1#40, true, [11#40, 12#40, 13#40], []⟩).map (·.2)).getD bootCore

theorem grownCore300_eq : mapPage 1#40 (frameAddress 10#40) (getMemAddress (frameAddress 10#40)) pageKernelWrite
    ⟨mappedCore300.mem, 1#40, true, [11#40, 12#40, 13#40], []⟩ = some ((), grownCore300) := rfl

theorem shared_created : ∃ s1, (∀ edited, sharedLedger.Step lowFrames edited
      (.newPageTable, [[10#40, 11#40, 12#40, 13#40]]) s1) ∧ s1.Inv lowFrames 2#40 ∧ s1.live = {10#40, 1#40} ∧
    (∀ f ∈ s1.used, f.toNat < 14) ∧ s1.machine.core = grownCore300.adopt 10#40 := by
  have family := sharedLedger_booted.inv.stocked shared_unmarked
  obtain ⟨m, done⟩ := Family.newPageTable_total (m := sharedLedger.machine.stock [10#40, 11#40, 12#40, 13#40]) family
    sharedLedger_booted.tidy rfl (by decide)
  refine ⟨_, fun edited => .newPageTable shared_unmarked done, sharedLedger_booted.inv.created shared_unmarked done,
    rfl, ?_, ?_⟩
  · have small : ∀ f ∈ [10#40, 11#40, 12#40, 13#40], f.toNat < 14 := by simp
    rintro f ⟨old | new, -⟩
    · exact Nat.lt_trans old (by decide)
    · exact small f new.1
  · obtain ⟨f, rest, c, supply, written, -, core⟩ := Family.newPageTable_spec
      (m := sharedLedger.machine.stock [10#40, 11#40, 12#40, 13#40]) family sharedLedger_booted.tidy done
    obtain ⟨rfl, rfl⟩ := List.cons.inj supply
    have same := (Prod.mk.inj (Option.some.inj (written.symm.trans grownCore300_eq))).2
    exact core.trans (by rw [same])

/-- The new space, before a page is mapped in it. -/
def ownCore : Core := { grownCore300.adopt 10#40 with supply := [14#40, 15#40, 16#40], freed := [] }

def ownCalls : List (MemoryCall × List (List Frame)) :=
  [(.newPageTable, [[10#40, 11#40, 12#40, 13#40]]),
    (.edit (.mapPage (frameAddress 10#40) 0x40000#64 0#64 pageKernelWrite), [[14#40, 15#40, 16#40]])]

theorem tables_marked_new : ∃ s', Run (CarefulStep lowFrames) sharedLedger ownCalls s' ∧
    s'.live = {10#40, 1#40} ∧ follow branches s'.mem 3 10#40 [0#9, 0#9, 0#9] = some 16#40 ∧ s'.Marked := by
  obtain ⟨s1, created, inv, live, few, core⟩ := shared_created
  have unmarked : s1.Unmarked lowFrames [14#40, 15#40, 16#40] := by
    have frames : ∀ f ∈ [14#40, 15#40, 16#40], f.toNat < 2 ^ 27 ∧ ¬ f.toNat < 14 ∧ f.toNat < 2 ^ 20 := by simp
    refine ⟨by decide, fun f member => ?_⟩
    obtain ⟨inside, spare, low⟩ := frames f member
    exact ⟨inside, fun used => spare (few f used), low⟩
  have stocked := inv.stocked unmarked
  have own : (s1.machine.stock [14#40, 15#40, 16#40]).core = ownCore := by
    rw [Machine.stock, core]
    rfl
  have target : s1.target (frameAddress 10#40) = 10#40 := rfl
  have member : s1.target (frameAddress 10#40) ∈ s1.live := by
    rw [target, live]
    exact .inl rfl
  have way : plain s1.mem 10#40 (directories 0#64) = true := by
    simp only [mem, core]
    decide +kernel
  have absent : isPresent (s1.mem 10#40 (getPl4Index 0#64)) = false := by
    simp only [mem, core]
    decide +kernel
  have edit := stocked.editable member (by decide) way
  have facts : (mapPage 10#40 0x40000#64 0#64 pageKernelWrite (ownCore.shut 10#40)).map
      (fun done => follow branches done.2.mem 3 10#40 [0#9, 0#9, 0#9]) = some (some 16#40) := by decide +kernel
  obtain ⟨⟨⟨⟩, c⟩, taken, reached⟩ := Option.map_eq_some_iff.mp facts
  rw [← own] at taken
  obtain ⟨⟨⟩, m', done, core', -⟩ := (vmmMapPage_simulates 0x40000#64 pageKernelWrite (by decide) (stocked.ready member)
    edit).yields taken
  have supplied : TableCall.Supplied (.mapPage (frameAddress 10#40) 0x40000#64 0#64 pageKernelWrite)
      (s1.machine.stock [14#40, 15#40, 16#40]) := by
    simp only [TableCall.Supplied, own]
    decide +kernel
  have edited : CarefulEdit lowFrames s1 (.mapPage (frameAddress 10#40) 0x40000#64 0#64 pageKernelWrite,
      [14#40, 15#40, 16#40]) (s1.settle [14#40, 15#40, 16#40] m') :=
    ⟨⟨by decide, way, fun _ => World.coherentBelow_absent absent, nofun⟩,
      unmarked, by decide, member, supplied, tableWalker, m', rfl, done, rfl⟩
  have run : Run (CarefulStep lowFrames) sharedLedger ownCalls (s1.settle [14#40, 15#40, 16#40] m') :=
    .cons ⟨trivial, created _⟩ (.cons ⟨trivial, .edit edited⟩ (.nil _))
  refine ⟨_, run, live, ?_, tables_marked sharedLedger_booted run⟩
  rw [← core'] at reached
  exact reached

/-- What the unmapping of the shared page starts from. -/
def splitCore : Core := { grownCore300.adopt 10#40 with supply := [], freed := [] }

theorem splitCore_facts : (removePage 1#40 sharedAddr splitCore).map
      (fun done => (done.2.mem 10#40 300#9, done.2.freed)) =
    some (pageCreate (frameAddress 3#40) pageKernelWrite, [frameAddress 5#40, frameAddress 4#40, frameAddress 3#40]) := by
  decide +kernel

/-- The kernel's PML4 loses the entry for the page's tables, which are given back. The new space
    keeps its copy of the entry. -/
theorem tables_dangling : sharedLedger.Booted lowFrames 2#40 ∧
    ∃ s', Run (Step lowFrames (Edited lowFrames)) sharedLedger [(.newPageTable, [[10#40, 11#40, 12#40, 13#40]]),
      (.edit (.unmapPage 0#64 sharedAddr), [[]])] s' ∧ ¬ s'.Marked := by
  obtain ⟨s1, created, inv, live, -, made⟩ := shared_created
  have core : (s1.machine.stock []).core = splitCore := by
    rw [Machine.stock, made]
    rfl
  obtain ⟨⟨⟨⟩, d⟩, removed, facts⟩ := Option.map_eq_some_iff.mp splitCore_facts
  obtain ⟨entry, freed⟩ := Prod.mk.inj facts
  have stocked := inv.stocked unmarked_nil
  have zero : frameAddress (frameOf 0#64) = 0#64 := by decide
  have target : (s1.machine.stock []).core.target 0#64 = 1#40 := by
    rw [core]
    rfl
  have member : (s1.machine.stock []).core.target 0#64 ∈ s1.live := by
    rw [target, live]
    exact .inr rfl
  have edit : Editable (s1.machine.stock []).core ((s1.machine.stock []).core.target 0#64) sharedAddr := by
    refine stocked.editable member (by decide) ?_
    rw [target, core]
    decide +kernel
  have begun : removePage ((s1.machine.stock []).core.target 0#64) sharedAddr
      ((s1.machine.stock []).core.shut ((s1.machine.stock []).core.target 0#64)) = some ((), d) := by
    rw [target, core]
    exact removed
  obtain ⟨res, m', taken, core', -⟩ := (vmmUnmapPage_simulates zero (stocked.ready member) edit).yields begun
  have supplied : TableCall.Supplied (.unmapPage 0#64 sharedAddr) (s1.machine.stock []) := by
    simp only [TableCall.Supplied, TableCall.table, core]
    decide +kernel
  have unmapped : s1.Edited lowFrames (.unmapPage 0#64 sharedAddr, []) (s1.settle [] m') :=
    ⟨unmarked_nil, zero, member, supplied, tableWalker, m', rfl, discard_eq taken, rfl⟩
  refine ⟨sharedLedger_booted, _, .cons (created _) (.cons (.edit unmapped) (.nil _)), fun marked => ?_⟩
  have links : Links m'.core.mem 10#40 300#9 3#40 := by
    rw [core']
    exact links_pageCreate pageKernelWrite entry
  have used := marked 10#40 (live ▸ .inl rfl) [] 10#40 300#9 3#40 rfl (by decide) links
  refine used.2 (frameAddress 3#40) ?_ ((unmarks_low_iff (by decide)).mpr (by decide))
  rw [core', freed]
  simp

end Runs

end Ledger

end Neutrino.Virtual
