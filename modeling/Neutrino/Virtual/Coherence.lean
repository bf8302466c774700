import Mathlib.Data.List.Infix
import Neutrino.Library.Runs
import Neutrino.Virtual.Spaces

namespace Neutrino.Virtual

open Library

inductive TableCall
  | mapPage (table physAddr virtAddr : W64) (prop : PageProperties)
  | unmapPage (table virtAddr : W64)

namespace TableCall

def table : TableCall → W64
  | .mapPage table .. | .unmapPage table _ => table

def virtAddr : TableCall → W64
  | .mapPage _ _ virtAddr _ | .unmapPage _ virtAddr => virtAddr

def exec [Processor] : TableCall → VmmM Unit
  | .mapPage table physAddr virtAddr prop => vmmMapPage table physAddr virtAddr prop
  | .unmapPage table virtAddr => discard (vmmUnmapPage table virtAddr)

/-- For the windows on the way of the call the TLB holds no other frames than the tables of the space.
    Only `vmm_map_page` reloads the window of the PML4 itself. -/
def Coherent (call : TableCall) (m : Machine) : Prop :=
  match call with
  | .mapPage table _ virtAddr _ => CoherentBelow m (m.core.target table) (directories virtAddr)
  | .unmapPage table virtAddr => Virtual.Coherent m (m.core.target table) (directories virtAddr)

end TableCall

/-- A call on an inactive space, with what the allocator has for it. -/
def Inactive (roots ram : Set Frame) (m : Machine) (call : TableCall × List Frame) (m' : Machine) : Prop :=
  frameAddress (frameOf call.1.table) = call.1.table ∧ m.core.target call.1.table ∈ roots ∧
    m.core.target call.1.table ≠ m.core.cr3 ∧ Stock m.core.mem roots ram call.2 ∧
    call.1.exec (m.withSupply call.2) = some ((), m')

/-- The address is not that of a table or under a huge page, and the TLB holds nothing out of date. -/
structure Settled (m : Machine) (call : TableCall) : Prop where
  outside : getPl4Index call.virtAddr ≠ recurseActive
  way : plain m.core.mem (m.core.target call.table) (directories call.virtAddr) = true
  coherent : call.Coherent m

section Runs

variable {m m' m1 m2 : Machine} {roots ram : Set Frame} {mirror : Frame} {call : TableCall × List Frame}
  {calls : List (TableCall × List Frame)}

theorem exec_edits (family : Family m.core roots ram mirror) (settled : Settled m call.1)
    (taken : Inactive roots ram m call m') :
    Edits (m.core.target call.1.table) (m.core.withSupply call.2) m'.core ∧
      Proper (m.core.target call.1.table) m m' := by
  obtain ⟨aligned, member, inactive, stock, done⟩ := taken
  have stocked := family.withSupply stock
  obtain ⟨outside, way, coherent⟩ := settled
  obtain ⟨call, supply⟩ := call
  cases call with
  | mapPage table physAddr virtAddr prop =>
    have edit := stocked.editable member outside way
    refine ⟨Family.vmmMapPage_edits (m := m.withSupply supply) stocked aligned member outside way done, ?_⟩
    obtain ⟨-, -, exact⟩ := (vmmMapPage_simulates (m := m.withSupply supply) physAddr prop aligned
      (stocked.ready member) edit).source done
    exact (exact (fun _ => coherent) fun active => absurd active inactive).proper
  | unmapPage table virtAddr =>
    have edit := stocked.editable member outside way
    obtain ⟨res, done⟩ := discard_some done
    refine ⟨Family.vmmUnmapPage_edits (m := m.withSupply supply) stocked aligned member outside way done, ?_⟩
    obtain ⟨-, -, exact⟩ := (vmmUnmapPage_simulates (m := m.withSupply supply) aligned
      (stocked.ready member) edit).source done
    exact (exact (fun _ => coherent) fun active => absurd active inactive).proper

end Runs

section Pair

/-- Two spaces with nothing mapped beside the kernel's. -/
def pairMem : Mem := fun g i =>
  if (g = 3#40 ∨ g = 4#40) ∧ i = recurseActive then pageCreate (frameAddress g) pageKernelWrite
  else bootMem g i

def pairCore (supply : List Frame) : Core := ⟨pairMem, 1#40, true, supply, []⟩

def pairRoots : Set Frame := {1#40, 3#40, 4#40}

def lowFrames : Set Frame := {f | f.toNat < 2 ^ 27}

variable {r f : Frame} {xs : List Index}

theorem pair_lone (member : r = 3#40 ∨ r = 4#40) (path : follow branches pairMem 3 r xs = some f) :
    xs = [] ∧ f = r := by
  cases xs with
  | nil =>
    cases path
    exact ⟨rfl, rfl⟩
  | cons i xs =>
    obtain ⟨h, here, -⟩ := follow_cons_some path
    obtain ⟨links, -, -, outside⟩ := branches_table here
    have slots : ∀ i, isPresent (pairMem 3#40 i) = true ∨ isPresent (pairMem 4#40 i) = true →
        i = recurseActive := by decide +kernel
    refine absurd ⟨rfl, ?_⟩ outside
    rcases member with rfl | rfl
    · exact slots i (.inl links.present)
    · exact slots i (.inr links.present)

theorem pair_kernel (path : follow branches pairMem 3 1#40 xs = some f) :
    xs = [] ∧ f = 1#40 ∨ xs = [permSlot] ∧ f = 2#40 := by
  apply boot_tables
  refine (follow_row ?_).mp path
  rintro g ⟨ys, reached⟩
  have other : g ≠ 3#40 ∧ g ≠ 4#40 := by
    rcases boot_tables reached with ⟨-, rfl⟩ | ⟨-, rfl⟩ <;> decide
  funext i
  simp [pairMem, other.1, other.2]

theorem pair_places (member : r ∈ pairRoots) (path : follow branches pairMem 3 r xs = some f) :
    xs = [] ∧ f = r ∨ xs = [permSlot] ∧ f = 2#40 ∧ r = 1#40 := by
  rcases member with rfl | lone
  · rcases pair_kernel path with root | ⟨place, mirror⟩
    · exact .inl root
    · exact .inr ⟨place, mirror, rfl⟩
  · exact .inl (pair_lone lone path)

theorem pair_ne_mirror (member : r ∈ pairRoots) : r ≠ 2#40 := by
  rcases member with rfl | rfl | rfl <;> decide

theorem pair_separated : Separated branches pairMem 3 pairRoots Lower where
  path {r r' f xs ys} member member' first second := by
    rcases pair_places member first with ⟨rfl, rfl⟩ | ⟨rfl, rfl, rfl⟩
    · rcases pair_places member' second with ⟨rfl, -⟩ | ⟨-, mirror, -⟩
      · rfl
      · exact absurd mirror (pair_ne_mirror member)
    · rcases pair_places member' second with ⟨-, mirror⟩ | ⟨rfl, -⟩
      · exact absurd mirror.symm (pair_ne_mirror member')
      · rfl
  root {r r' f xs} member member' first second lower := by
    rcases pair_places member first with ⟨rfl, rfl⟩ | ⟨rfl, -⟩
    · rcases pair_places member' second with ⟨-, same⟩ | ⟨none, -⟩
      · exact same
      · cases none
    · exact absurd (lower permSlot rfl) (by decide)

theorem pair_selves (member : r ∈ pairRoots) : Links pairMem r recurseActive r := by
  rcases member with rfl | rfl | rfl <;> exact ⟨by decide, by decide, by decide⟩

theorem pair_perm : Links pairMem 1#40 permSlot 2#40 := ⟨by decide, by decide, by decide⟩

theorem pair_mirror : pairMem 2#40 = bootMem 2#40 := by
  funext i
  simp [pairMem]

theorem pair_low (member : r ∈ pairRoots) : r.toNat < 5 := by
  rcases member with rfl | rfl | rfl <;> decide

theorem pair_family {supply : List Frame} (nodup : supply.Nodup)
    (low : ∀ f ∈ supply, f.toNat < 2 ^ 27 ∧ 4 < f.toNat) : Family (pairCore supply) pairRoots lowFrames 2#40 where
  initialized := rfl
  active := .inl rfl
  inside r member := (pair_low member).trans (by decide)
  selves r member := pair_selves member
  perm := pair_perm
  mirrored f inside := (boot_mirrored inside).of_row pair_mirror
  separated := pair_separated
  nodup := nodup
  stocked f member := by
    have bound := low f member
    refine ⟨bound.1, ?_⟩
    rintro r inside ⟨xs, path⟩
    rcases pair_places inside path with ⟨-, rfl⟩ | ⟨-, rfl, -⟩
    · have root := pair_low inside
      omega
    · exact absurd bound.2 (by decide)

end Pair

/-- The core is `c`, and the TLB may answer a use of the page `q` with `h`. -/
def Stale (m : Machine) (c : Core) (q : PageNumber) (h : Frame) (m' : Machine) : Prop :=
  m'.core = c ∧ (q, h) ∈ m'.tlb ∧ ∃ new, m'.log = m.log ++ new

/-- There was such a use. -/
def Misled (m : Machine) (mem : Mem) (q : PageNumber) (h : Frame) (m' : Machine) : Prop :=
  ∃ new, m'.log = m.log ++ new ∧ ∃ a ∈ new, a.page = q ∧ h ∈ a.retained ∧ a.mem = mem

section Stale

variable {m n n' : Machine} {c : Core} {mem : Mem} {q p : PageNumber} {g h t t1 t2 t3 mirror : Frame}
  {table v physAddr : W64} {i : Index} {prop : PageProperties}

theorem Stale.used (stale : Stale m c q h n) (p : PageNumber) (g : Frame) : Stale m c q h (n.used p g) := by
  obtain ⟨core, kept, new, log⟩ := stale
  refine ⟨core, List.mem_cons_of_mem _ kept, new ++ [⟨p, g, n.retained p, n.core.mem⟩], ?_⟩
  rw [← List.append_assoc, ← log]
  rfl

theorem Stale.misled (stale : Stale m c q h n) (g : Frame) : Misled m c.mem q h (n.used q g) := by
  obtain ⟨core, kept, new, log⟩ := stale
  refine ⟨new ++ [⟨q, g, n.retained q, n.core.mem⟩], ?_, ⟨q, g, n.retained q, n.core.mem⟩, by simp, rfl, ?_,
    by rw [core]⟩
  · rw [← List.append_assoc, ← log]
    rfl
  · simpa [Machine.retained] using kept

theorem Misled.later (misled : Misled m mem q h n) {new : List Access} (log : n'.log = n.log ++ new) :
    Misled m mem q h n' := by
  obtain ⟨old, before, a, member, bad⟩ := misled
  refine ⟨old ++ new, ?_, a, List.mem_append_left new member, bad⟩
  rw [log, before, List.append_assoc]

theorem Misled.not_proper (misled : Misled m mem q h n) (gate : throughGate q = true)
    (other : ¬ IsTable mem t h) : ¬ Proper t m n := by
  rintro ⟨new, log, proper⟩
  obtain ⟨new', log', a, member, rfl, held, rfl⟩ := misled
  have same : new' = new := List.append_cancel_left (log'.symm.trans log)
  rw [same] at member
  exact other (proper a member gate h (List.mem_cons_of_mem _ held))

theorem Stale.refl (kept : (q, h) ∈ m.tlb) : Stale m m.core q h m := ⟨rfl, kept, [], by rw [List.append_nil]⟩

theorem vmmGetOrCreateEntry_stale [Processor] (stale : Stale m c q h n) (finds : Finds c table g)
    (present : isPresent (c.mem g i) = true) (prop : PageProperties) :
    Yields n (vmmGetOrCreateEntry table (i.setWidth 64) prop) fun _ n' =>
      Stale m c q h n' ∧ (Misled m c.mem q h n ∨ pageNumber table = q → Misled m c.mem q h n') := by
  rw [← stale.1] at finds present
  unfold vmmGetOrCreateEntry
  refine .after (load_answered finds.aligned (finds.answer n rfl) i) ?_
  rw [if_pos present]
  refine .after (load_answered finds.aligned (finds.answer (n.used _ g) rfl) i) (.pure ⟨(stale.used _ g).used _ g, ?_⟩)
  rintro (misled | rfl)
  · have once : Misled m c.mem q h (n.used (pageNumber table) g) := misled.later rfl
    exact once.later rfl
  · exact (stale.misled g).later rfl

theorem vmmGetMostNestedTable_stale [Processor] (top : Finds c (window recurseOther []) t)
    (pointers : Finds c (window recurseOther [getPl4Index v]) t1)
    (directory : Finds c (window recurseOther [getPl4Index v, getDptIndex v]) t2) (chain : Chain c.mem v t t1 t2 t3)
    (stale : Stale m c q h n) (prop : PageProperties) :
    Yields n (vmmGetMostNestedTable (window recurseOther []) v prop) fun table n' =>
      table = window recurseOther (directories v) ∧ Stale m c q h n' ∧
        (pageNumber (window recurseOther [getPl4Index v]) = q → Misled m c.mem q h n') := by
  unfold vmmGetMostNestedTable
  simp only [isRecursive_window, ↓reduceIte, getRecursiveAddress_zero]
  rw [window, getPagingPath_tableAddress]
  refine (vmmGetOrCreateEntry_stale stale top chain.first.present _).bind ?_
  rintro _ n1 ⟨stale, -⟩
  refine (vmmGetOrCreateEntry_stale stale pointers chain.second.present _).bind ?_
  rintro _ n2 ⟨stale, misled⟩
  refine (vmmGetOrCreateEntry_stale stale directory chain.third.present _).bind ?_
  rintro _ n3 ⟨stale, still⟩
  exact .pure ⟨rfl, stale, fun same => still (.inl (misled (.inr same)))⟩

theorem store_otherSlot_stale [Processor] (off : Processor.writeProtect = false) (stale : Stale m c q h n)
    (finds : Finds c (window recurseActive []) c.cr3) (e : W64) :
    Yields n (store otherSlot e) fun _ n' => Stale m (c.setOther e) q h n' := by
  obtain ⟨-, kept, log⟩ := stale.used (pageNumber vmmGetActiveRecurseLink) c.cr3
  obtain ⟨rfl, -⟩ := stale
  have stored := store_answered finds.aligned (finds.answer n rfl) off recurseOther e
  rw [← activeLink_eq] at stored
  exact .of_eq stored ⟨rfl, kept, log⟩

theorem vmmReloadTlb_stale {addr : W64} (stale : Stale m c q h n) (other : q ≠ pageNumber addr) :
    Yields n (vmmReloadTlb addr) fun _ n' => Stale m c q h n' := by
  obtain ⟨core, kept, log⟩ := stale
  refine .of_eq rfl ⟨core, ?_, log⟩
  rw [List.mem_filter]
  exact ⟨kept, by simpa using other⟩

theorem Chain.setOther (chain : Chain c.mem v t t1 t2 t3) (outside : getPl4Index v ≠ recurseActive)
    (apart : ¬ IsTable c.mem t c.cr3) (e : W64) : Chain (c.setOther e).mem v t t1 t2 t3 := by
  have below : ∀ {g}, IsTable c.mem t g → (c.setOther e).mem g = c.mem g := by
    intro g reached
    funext j
    apply write_of_ne
    rintro ⟨rfl, -⟩
    exact apart reached
  exact ⟨chain.first.of_row (below ⟨[], rfl⟩), chain.second.of_row (below ⟨_, chain.pointers outside⟩),
    chain.third.of_row (below ⟨_, chain.directory outside⟩)⟩

theorem vmmMapPage_stale (aligned : frameAddress (frameOf table) = table)
    (ready : Ready m.core (m.core.target table) mirror) (inactive : m.core.target table ≠ m.core.cr3)
    (outside : getPl4Index v ≠ recurseActive) (chain : Chain m.core.mem v (m.core.target table) t1 t2 t3)
    (kept : (pageNumber (window recurseOther [getPl4Index v]), h) ∈ m.tlb)
    (other : ¬ IsTable m.core.mem (m.core.target table) h) :
    Yields m (vmmMapPage table physAddr v prop) fun _ m' => ¬ Proper (m.core.target table) m m' := by
  have apart := ready.apart inactive
  have asked : readCr3 m = some (frameAddress m.core.cr3, m) := rfl
  have gate := ready.gate_other (target_eq aligned inactive) prop
  have opened := chain.setOther outside apart (pageCreate table prop)
  have root : pageNumber (window recurseOther [getPl4Index v]) ≠ pageNumber (window recurseOther []) := by
    intro same
    cases window_injective (by simp) (by simp) same
  have gone : ¬ IsTable (m.core.setOther (pageCreate table prop)).mem (m.core.target table) h := by
    rintro ⟨xs, path⟩
    exact other ⟨xs, (follow_setOther apart).mp path⟩
  unfold vmmMapPage
  refine .after asked ?_
  rw [if_neg (mt (active_iff aligned).mp inactive), otherLink_eq]
  refine (store_otherSlot_stale rfl (.refl kept) (reaches_activeLink ready.active).finds (pageCreate table prop)).bind ?_
  intro _ n1 stale
  refine (vmmReloadTlb_stale stale root).bind ?_
  intro _ n2 stale
  have implemented : Yields n2 (vmmMapPageImpl (window recurseOther []) physAddr v prop) fun _ n4 =>
      Links n4.core.mem n4.core.cr3 recurseActive n4.core.cr3 ∧
      Misled m (m.core.setOther (pageCreate table prop)).mem
        (pageNumber (window recurseOther [getPl4Index v])) h n4 := by
    have top : follow branches (m.core.setOther (pageCreate table prop)).mem 3 (m.core.target table) [] =
        some (m.core.target table) := rfl
    refine (vmmGetMostNestedTable_stale (reaches_window gate top).finds (reaches_window gate (opened.pointers outside)).finds
      (reaches_window gate (opened.directory outside)).finds opened stale prop).bind ?_
    rintro _ n3 ⟨rfl, ⟨core, -⟩, misled⟩
    have last := reaches_window gate (opened.last outside)
    rw [← core] at last
    refine .of_eq (store_entry last (getTabIndex v) _) ⟨?_, (misled rfl).later rfl⟩
    have away : m.core.cr3 ≠ t3 := by
      rintro rfl
      exact apart ⟨_, chain.last outside⟩
    rw [core]
    exact (setOther_links ready.active (by decide)).congr (write_of_ne fun both => away both.1)
  refine implemented.bind ?_
  rintro _ n4 ⟨active, misled⟩
  refine (store_otherSlot active 0#64).bind ?_
  rintro _ n5 ⟨-, silent⟩
  obtain ⟨new, log, -⟩ := silent.log
  refine (vmmReloadTlb_yields v).mono ?_
  rintro _ n6 ⟨-, silent', -⟩
  obtain ⟨new', log', -⟩ := silent'.log
  exact ((misled.later log).later log').not_proper (throughGate_window (by simp)) gone

end Stale

section Shared

/-- A page mapped in one of the two spaces, and then in the other. -/
def loneCore : Core :=
  ((mapPage 3#40 0xb000#64 0#64 pageKernelWrite
    (pairCore [5#40, 6#40, 7#40, 8#40, 9#40, 10#40])).map (·.2)).getD (pairCore [])

def sharedCore : Core :=
  ((mapPage 4#40 0xc000#64 0#64 pageKernelWrite loneCore).map (·.2)).getD loneCore

theorem loneCore_eq : mapPage 3#40 0xb000#64 0#64 pageKernelWrite
    (pairCore [5#40, 6#40, 7#40, 8#40, 9#40, 10#40]) = some ((), loneCore) := rfl

theorem sharedCore_eq : mapPage 4#40 0xc000#64 0#64 pageKernelWrite loneCore = some ((), sharedCore) := rfl

theorem shared_family : Family sharedCore pairRoots lowFrames 2#40 := by
  have start : Family (pairCore [5#40, 6#40, 7#40, 8#40, 9#40, 10#40]) pairRoots lowFrames 2#40 :=
    pair_family (by decide) (by simp)
  have first : (3#40 : Frame) ∈ pairRoots := .inr (.inl rfl)
  have second : (4#40 : Frame) ∈ pairRoots := .inr (.inr rfl)
  have lone := start.edits first
    (mapPage_edits (start.editable first (by decide) (by decide +kernel)) loneCore_eq)
  exact lone.edits second
    (mapPage_edits (lone.editable second (by decide) (by decide +kernel)) sharedCore_eq)

theorem no_stock (mem : Mem) : Stock mem pairRoots lowFrames [] := ⟨List.nodup_nil, nofun⟩

def sharedMachine : Machine := ⟨sharedCore, [], []⟩

def editFirst : TableCall := .mapPage (frameAddress 3#40) 0xd000#64 0x1000#64 pageKernelWrite

def editAgain : TableCall := .mapPage (frameAddress 3#40) 0xf000#64 0x2000#64 pageKernelWrite

def editSecond : TableCall := .mapPage (frameAddress 4#40) 0xe000#64 0x1000#64 pageKernelWrite

theorem editFirst_facts : (editFirst.exec (sharedMachine.withSupply [])).map (fun done =>
      (decide ((pageNumber (window recurseOther [0#9]), 5#40) ∈ done.2.tlb), done.2.core.cr3,
        done.2.core.mem 3#40 0#9, done.2.core.mem 4#40 0#9, done.2.core.mem 8#40 0#9, done.2.core.mem 9#40 0#9)) =
    some (true, 1#40, pageCreate (frameAddress 5#40) pageKernelWrite, pageCreate (frameAddress 8#40) pageKernelWrite,
      pageCreate (frameAddress 9#40) pageKernelWrite, pageCreate (frameAddress 10#40) pageKernelWrite) := by
  decide +kernel

theorem editAgain_facts : (editFirst.exec (sharedMachine.withSupply [])).map (fun done =>
      (((editAgain.exec (done.2.withSupply [])).isSome, plain done.2.core.mem 3#40 (directories 0x2000#64),
        done.2.core.cr3), (done.2.core.mem 3#40 0#9, done.2.core.mem 5#40 0#9, done.2.core.mem 6#40 0#9),
        done.2.tlb.all fun entry => decide (
          (entry.1 = pageNumber (window recurseOther [0#9]) → entry.2 = 5#40) ∧
          (entry.1 = pageNumber (window recurseOther [0#9, 0#9]) → entry.2 = 6#40) ∧
          (entry.1 = pageNumber (window recurseOther [0#9, 0#9, 0#9]) → entry.2 = 7#40)))) =
    some ((true, true, 1#40), (pageCreate (frameAddress 5#40) pageKernelWrite,
      pageCreate (frameAddress 6#40) pageKernelWrite, pageCreate (frameAddress 7#40) pageKernelWrite), true) := by
  decide +kernel

theorem editFirst_settled : Settled sharedMachine editFirst where
  outside := by decide
  way := by decide +kernel
  coherent xs g h _ _ _ member := by cases member

theorem editFirst_taken : ∃ m1, Inactive pairRoots lowFrames sharedMachine (editFirst, []) m1 ∧
    m1.core.cr3 = 1#40 ∧ (pageNumber (window recurseOther [0#9]), 5#40) ∈ m1.tlb ∧
    Links m1.core.mem 3#40 0#9 5#40 ∧ Chain m1.core.mem 0x1000#64 4#40 8#40 9#40 10#40 := by
  obtain ⟨⟨⟨⟩, m1⟩, taken, facts⟩ := Option.map_eq_some_iff.mp editFirst_facts
  simp only [Prod.mk.injEq, decide_eq_true_eq] at facts
  obtain ⟨held, root, own, first, second, third⟩ := facts
  refine ⟨m1, ⟨by decide, .inr (.inl rfl), by decide, no_stock _, taken⟩, root, held, links_pageCreate _ own,
    links_pageCreate _ first, links_pageCreate _ second, links_pageCreate _ third⟩

end Shared

section Runs

variable {m m1 m2 : Machine} {roots ram : Set Frame} {mirror : Frame} {call : TableCall × List Frame}
  {calls : List (TableCall × List Frame)}

theorem inactive_edits_proper (family : Family m.core roots ram mirror)
    (run : Run (fun s call s' => Settled s call.1 ∧ Inactive roots ram s call s') m calls m1)
    (settled : Settled m1 call.1) (taken : Inactive roots ram m1 call m2) :
    Proper (m1.core.target call.1.table) m1 m2 := by
  have preserved : ∀ s call s', Family s.core roots ram mirror →
      Settled s call.1 ∧ Inactive roots ram s call s' → Family s'.core roots ram mirror := by
    intro s call s' family ⟨settled, taken⟩
    exact (family.withSupply taken.2.2.2.1).edits taken.2.1 (exec_edits family settled taken).1
  exact (exec_edits (run.invariant preserved family) settled taken).2

/-- The same space is edited twice. -/
theorem inactive_edits_proper_again : ∃ m1 m2,
    Run (fun s call s' => Settled s call.1 ∧ Inactive pairRoots lowFrames s call s') sharedMachine [(editFirst, [])] m1 ∧
    Inactive pairRoots lowFrames m1 (editAgain, []) m2 ∧ Proper 3#40 m1 m2 := by
  obtain ⟨⟨⟨⟩, m1⟩, taken, facts⟩ := Option.map_eq_some_iff.mp editAgain_facts
  simp only [Prod.mk.injEq, List.all_eq_true, decide_eq_true_eq] at facts
  obtain ⟨⟨done, way, root⟩, ⟨first, second, third⟩, held⟩ := facts
  obtain ⟨⟨⟨⟩, m2⟩, again⟩ := Option.isSome_iff_exists.mp done
  have chain : Chain m1.core.mem 0x2000#64 3#40 5#40 6#40 7#40 :=
    ⟨links_pageCreate _ first, links_pageCreate _ second, links_pageCreate _ third⟩
  have settled : Settled m1 editAgain := by
    refine ⟨by decide, way, ?_⟩
    intro xs g h some below path member
    have tables := held _ member
    have cases : xs = [0#9] ∨ xs = [0#9, 0#9] ∨ xs = [0#9, 0#9, 0#9] := by
      have inits : xs ∈ [[], [0#9], [0#9, 0#9], [0#9, 0#9, 0#9]] := (List.mem_inits _ _).mpr below
      simpa [some] using inits
    rcases cases with rfl | rfl | rfl
    · exact (tables.1 rfl).trans (Option.some.inj ((chain.pointers (by decide)).symm.trans path))
    · exact (tables.2.1 rfl).trans (Option.some.inj ((chain.directory (by decide)).symm.trans path))
    · exact (tables.2.2 rfl).trans (Option.some.inj ((chain.last (by decide)).symm.trans path))
  have edited : Inactive pairRoots lowFrames sharedMachine (editFirst, []) m1 :=
    ⟨by decide, .inr (.inl rfl), by decide, no_stock _, taken⟩
  have run : Run (fun s call s' => Settled s call.1 ∧ Inactive pairRoots lowFrames s call s') sharedMachine
      [(editFirst, [])] m1 := .cons ⟨editFirst_settled, edited⟩ (.nil _)
  have inactive : m1.core.target editAgain.table ≠ m1.core.cr3 := by
    rw [root]
    exact show (3#40 : Frame) ≠ 1#40 by decide
  have edited' : Inactive pairRoots lowFrames m1 (editAgain, []) m2 :=
    ⟨by decide, .inr (.inl rfl), inactive, no_stock _, again⟩
  exact ⟨m1, m2, run, edited', inactive_edits_proper shared_family run settled edited'⟩

/-- The second space is edited through a window that still shows a table of the first. -/
theorem inactive_edits_stale : Family sharedMachine.core pairRoots lowFrames 2#40 ∧
    ∃ m1 m2, Run (Inactive pairRoots lowFrames) sharedMachine [(editFirst, [])] m1 ∧
      Inactive pairRoots lowFrames m1 (editSecond, []) m2 ∧
      ¬ Proper (m1.core.target editSecond.table) m1 m2 := by
  obtain ⟨m1, taken, root, held, own, chain⟩ := editFirst_taken
  have family := (shared_family.withSupply (no_stock _)).edits taken.2.1
    (exec_edits shared_family editFirst_settled taken).1
  have target : m1.core.target editSecond.table = 4#40 := rfl
  have member : m1.core.target editSecond.table ∈ pairRoots := .inr (.inr rfl)
  have inactive : m1.core.target editSecond.table ≠ m1.core.cr3 := by
    rw [target, root]
    decide
  -- the table left in the TLB is one of the first space's own
  have other : ¬ IsTable m1.core.mem (m1.core.target editSecond.table) 5#40 := by
    rintro ⟨xs, path⟩
    have place : follow branches m1.core.mem 3 3#40 [0#9] = some 5#40 := by
      rw [follow_cons (branches_links own (by decide) (by decide) (by decide))]
      rfl
    have first : (3#40 : Frame) ∈ pairRoots := .inr (.inl rfl)
    cases family.separated.path member first path place
    have same := family.separated.root member first path place (by simp [Lower])
    rw [target] at same
    exact absurd same (by decide)
  have ready := (family.withSupply (no_stock _)).ready member
  have aligned : frameAddress (frameOf editSecond.table) = editSecond.table := by decide
  have outside : getPl4Index 0x1000#64 ≠ recurseActive := by decide
  have misled : Yields (m1.withSupply []) editSecond.exec fun _ m2 => ¬ Proper 4#40 (m1.withSupply []) m2 :=
    vmmMapPage_stale aligned ready inactive outside chain held other
  obtain ⟨⟨⟩, m2, done, improper⟩ := misled
  exact ⟨shared_family, m1, m2, .cons taken (.nil m1), ⟨aligned, member, inactive, no_stock _, done⟩, improper⟩

end Runs

end Neutrino.Virtual
