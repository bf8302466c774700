import Neutrino.Virtual.Coherence

namespace Neutrino.Virtual

open Library

/-- If the page is one of the gate, the TLB holds no other frame for it than the tables. -/
def Access.Sure (a : Access) : Prop := throughGate a.page = true → ∀ h ∈ a.retained, h = a.frame

/-- Where `walked` comes back and its uses of pages are sure, `code` comes back in the same way. -/
def Follows {α : Type} (walked code : VmmM α) : Prop :=
  ∀ m a m', walked m = some (a, m') → ∃ new, m'.log = m.log ++ new ∧ ((∀ x ∈ new, x.Sure) → code m = some (a, m'))

section Follows

variable {α β : Type} {walked code walked' code' : VmmM α} {next next' : α → VmmM β}

theorem Follows.quiet (quiet : ∀ m a m', code m = some (a, m') → m'.log = m.log) : Follows code code := by
  intro m a m' taken
  exact ⟨[], by rw [quiet m a m' taken, List.append_nil], fun _ => taken⟩

theorem Follows.pure (a : α) : Follows (Pure.pure a) (Pure.pure a) :=
  .quiet fun _ _ _ taken => by cases taken; rfl

theorem Follows.modify {f : Machine → Machine} (same : ∀ m, (f m).log = m.log) :
    Follows (modify f : VmmM PUnit) (modify f) :=
  .quiet fun m _ _ taken => by cases taken; exact same m

theorem Follows.bind (first : Follows walked code) (rest : ∀ a, Follows (next a) (next' a)) :
    Follows (walked >>= next) (code >>= next') := by
  intro m b m' taken
  obtain ⟨a, m1, begun, ended⟩ := bind_some taken
  obtain ⟨new, log, same⟩ := first m a m1 begun
  obtain ⟨new', log', same'⟩ := rest a m1 b m' ended
  refine ⟨new ++ new', by rw [log', log, List.append_assoc], fun sure => ?_⟩
  have here := same fun x member => sure x (List.mem_append_left new' member)
  have there := same' fun x member => sure x (List.mem_append_right new member)
  simp only [Bind.bind, StateT.bind, here, Option.bind, there]

theorem Follows.get {next next' : Machine → VmmM β} (rest : ∀ m, Follows (next m) (next' m)) :
    Follows (MonadState.get >>= next) (MonadState.get >>= next') :=
  .bind (.quiet fun _ _ _ taken => by cases taken; rfl) rest

theorem Follows.ite {cond : Prop} [Decidable cond] (holds : Follows walked code) (fails : Follows walked' code') :
    Follows (if cond then walked else walked') (if cond then code else code') := by
  split
  · exact holds
  · exact fails

theorem Follows.forM {ι : Type} {xs : List ι} {body body' : ι → VmmM PUnit} (step : ∀ x, Follows (body x) (body' x)) :
    Follows (xs.forM body) (xs.forM body') := by
  induction xs with
  | nil => exact .pure ()
  | cons x xs ih => exact (step x).bind fun _ => ih

end Follows

section Code

variable [Processor] (table entry parent addr v physAddr : W64) (prop : PageProperties)

theorem access_follows : Follows (@access tableWalker addr) (access addr) := by
  intro m f m' taken
  obtain ⟨g, answered, same⟩ := Option.map_eq_some_iff.mp taken
  cases same
  refine ⟨[⟨pageNumber addr, f, m.retained (pageNumber addr), m.core.mem⟩], rfl, fun sure => ?_⟩
  have right : Processor.answer m (pageNumber addr) = some f := by
    rcases Processor.held m (pageNumber addr) with walked | ⟨gate, h, kept, stale⟩
    · exact walked.trans answered
    · rw [stale, sure _ (List.mem_singleton.mpr rfl) gate h kept]
  simp only [access, right, Option.map_some]

theorem load_follows : Follows (@load tableWalker addr) (load addr) :=
  (access_follows addr).bind fun _ => .get fun _ => .pure _

theorem vmmGetEntry_follows : Follows (@vmmGetEntry tableWalker table entry) (vmmGetEntry table entry) := by
  unfold vmmGetEntry
  refine (load_follows _).bind fun _ => .ite ?_ (.pure _)
  exact (load_follows _).bind fun _ => .pure _

theorem vmmIsTableFreeFrom_follows (entries : List Nat) :
    Follows (@vmmIsTableFreeFrom tableWalker table entries) (vmmIsTableFreeFrom table entries) := by
  induction entries with
  | nil => exact .pure true
  | cons i rest ih =>
    unfold vmmIsTableFreeFrom
    exact (vmmGetEntry_follows table _).bind fun _ => .ite (.pure false) ih

variable (off : Processor.writeProtect = false)
include off

theorem store_follows (value : W64) : Follows (@store tableWalker addr value) (store addr value) := by
  rw [store_unprotected off, @store_unprotected tableWalker rfl]
  exact (access_follows addr).bind fun _ => .modify fun _ => rfl

theorem memoryClear_follows (words : Nat) : Follows (@memoryClear tableWalker addr words) (memoryClear addr words) :=
  .forM fun _ => store_follows _ off 0#64

theorem vmmCreateEntry_follows :
    Follows (@vmmCreateEntry tableWalker table entry prop) (vmmCreateEntry table entry prop) := by
  have taken : Follows pmmAlloc pmmAlloc := by
    refine .quiet fun m a m' taken => ?_
    unfold pmmAlloc at taken
    split at taken
    · cases taken
    · cases taken
      rfl
  have flushed : Follows vmmReloadCr3 vmmReloadCr3 := .modify fun _ => rfl
  unfold vmmCreateEntry
  refine taken.bind fun _ => (store_follows _ off _).bind fun _ => .get fun _ => .ite ?_ ?_
  · exact (memoryClear_follows _ off _).bind fun _ => flushed.bind fun _ => .pure _
  · exact flushed.bind fun _ => .pure _

theorem vmmGetOrCreateEntry_follows :
    Follows (@vmmGetOrCreateEntry tableWalker table entry prop) (vmmGetOrCreateEntry table entry prop) := by
  unfold vmmGetOrCreateEntry
  refine (load_follows _).bind fun _ => .ite ?_ (vmmCreateEntry_follows table entry prop off)
  exact (load_follows _).bind fun _ => .pure _

theorem vmmGetTableAddress_follows (depth : Nat) :
    Follows (@vmmGetTableAddress tableWalker table v depth) (vmmGetTableAddress table v depth) := by
  have created (table entry : W64) := vmmGetOrCreateEntry_follows table entry pageKernelWrite off
  unfold vmmGetTableAddress
  refine .ite (.pure _) (.ite ?_ ?_)
  · refine .ite (.pure _) ((created _ _).bind fun _ => .ite (.pure _) ?_)
    exact (created _ _).bind fun _ => .pure _
  · exact (created _ _).bind fun _ => (created _ _).bind fun _ => .ite (.pure _) (created _ _)

theorem vmmFreeIfNecessaryTable_follows (i : W64) :
    Follows (@vmmFreeIfNecessaryTable tableWalker table parent i) (vmmFreeIfNecessaryTable table parent i) := by
  have freed (a : W64) : Follows (pmmFree a) (pmmFree a) := .modify fun _ => rfl
  unfold vmmFreeIfNecessaryTable vmmIsTableFree
  refine (vmmIsTableFreeFrom_follows table _).bind fun _ => .ite ?_ (.pure _)
  exact (load_follows _).bind fun _ => (freed _).bind fun _ => (load_follows _).bind fun _ => store_follows _ off _

theorem vmmFreeIfNecessaryTables_follows :
    Follows (@vmmFreeIfNecessaryTables tableWalker table v) (vmmFreeIfNecessaryTables table v) := by
  have addressed (depth : Nat) := vmmGetTableAddress_follows table v off depth
  have freed (table parent i : W64) := vmmFreeIfNecessaryTable_follows table parent off i
  unfold vmmFreeIfNecessaryTables
  refine (addressed 1).bind fun _ => (addressed 2).bind fun _ => (addressed 3).bind fun _ => ?_
  exact (freed _ _ _).bind fun _ => (freed _ _ _).bind fun _ => freed _ _ _

theorem vmmGetMostNestedTable_follows :
    Follows (@vmmGetMostNestedTable tableWalker table v prop) (vmmGetMostNestedTable table v prop) := by
  have created (table entry : W64) (prop : PageProperties) := vmmGetOrCreateEntry_follows table entry prop off
  unfold vmmGetMostNestedTable
  refine .ite ?_ ?_
  · exact (created _ _ _).bind fun _ => (created _ _ _).bind fun _ => (created _ _ _).bind fun _ => .pure _
  · exact (created _ _ _).bind fun _ => (created _ _ _).bind fun _ => created _ _ _

theorem vmmMapPageImpl_follows :
    Follows (@vmmMapPageImpl tableWalker table physAddr v prop) (vmmMapPageImpl table physAddr v prop) := by
  unfold vmmMapPageImpl
  exact (vmmGetMostNestedTable_follows table v prop off).bind fun _ => store_follows _ off _

theorem vmmUnmapPageImpl_follows : Follows (@vmmUnmapPageImpl tableWalker table v) (vmmUnmapPageImpl table v) := by
  have reloaded : Follows (vmmReloadTlb v) (vmmReloadTlb v) := .modify fun _ => rfl
  unfold vmmUnmapPageImpl
  refine (vmmGetMostNestedTable_follows table v _ off).bind fun _ => .ite (.pure _) ?_
  refine (load_follows _).bind fun _ => (store_follows _ off _).bind fun _ => ?_
  exact (vmmFreeIfNecessaryTables_follows table v off).bind fun _ => reloaded.bind fun _ => .pure _

theorem vmmMapPage_follows :
    Follows (@vmmMapPage tableWalker table physAddr v prop) (vmmMapPage table physAddr v prop) := by
  have reloaded (a : W64) : Follows (vmmReloadTlb a) (vmmReloadTlb a) := .modify fun _ => rfl
  have asked : Follows readCr3 readCr3 := .get fun _ => .pure _
  unfold vmmMapPage
  refine asked.bind fun _ => .ite ?_ ?_
  · exact (vmmMapPageImpl_follows _ v physAddr prop off).bind fun _ => reloaded _
  · refine (store_follows _ off _).bind fun _ => (reloaded _).bind fun _ => ?_
    exact (vmmMapPageImpl_follows _ v physAddr prop off).bind fun _ => (store_follows _ off _).bind fun _ => reloaded _

theorem vmmUnmapPage_follows : Follows (@vmmUnmapPage tableWalker table v) (vmmUnmapPage table v) := by
  have reloaded (a : W64) : Follows (vmmReloadTlb a) (vmmReloadTlb a) := .modify fun _ => rfl
  have asked : Follows readCr3 readCr3 := .get fun _ => .pure _
  unfold vmmUnmapPage
  refine asked.bind fun _ => .ite ?_ ?_
  · exact (vmmUnmapPageImpl_follows _ v off).bind fun _ => (reloaded _).bind fun _ => .pure _
  · refine (store_follows _ off _).bind fun _ => (reloaded _).bind fun _ => ?_
    refine (vmmUnmapPageImpl_follows _ v off).bind fun _ => (store_follows _ off _).bind fun _ => ?_
    exact (reloaded _).bind fun _ => .pure _

theorem exec_follows (call : TableCall) : Follows (@TableCall.exec tableWalker call) call.exec := by
  cases call with
  | mapPage table physAddr virtAddr prop => exact vmmMapPage_follows table virtAddr physAddr prop off
  | unmapPage table virtAddr =>
    intro m _ m' taken
    obtain ⟨res, done⟩ := discard_some taken
    obtain ⟨new, log, same⟩ := vmmUnmapPage_follows table virtAddr off m res m' done
    exact ⟨new, log, fun sure => discard_eq (same sure)⟩

end Code

/-- The allocator has a frame for each table that is missing on the way; without it `pmm_alloc` ends
    the run. -/
def TableCall.Supplied (call : TableCall) (m : Machine) : Prop :=
  (pathTables m.core.mem (m.core.target call.table) (directories call.virtAddr) m.core.supply).length = 3

section Calls

variable {m m' : Machine} {c : Core} {t g mirror : Frame} {ys : List Index} {call : TableCall}

theorem descend_enough (prop : PageProperties) (g : Frame)
    (enough : (pathTables c.mem g ys c.supply).length = ys.length) : ∃ f c', descend prop g ys c = some (f, c') := by
  induction ys generalizing g c with
  | nil => exact ⟨g, c, rfl⟩
  | cons i ys ih =>
    obtain ⟨h, c1, first⟩ : ∃ h c1, ensure prop g i c = some (h, c1) := by
      unfold ensure create
      by_cases present : isPresent (c.mem g i) = true
      · rw [if_pos present]
        exact ⟨_, _, rfl⟩
      · rw [if_neg present]
        cases supply : c.supply with
        | nil =>
          rw [pathTables, if_neg present, supply] at enough
          cases enough
        | cons f rest => exact ⟨_, _, rfl⟩
    rw [pathTables_ensure first, List.length_cons, List.length_cons] at enough
    obtain ⟨f, c', rest⟩ := ih h (c := c1) (Nat.succ.inj enough)
    refine ⟨f, c', ?_⟩
    simp only [descend, Bind.bind, StateT.bind, first, Option.bind]
    exact rest

variable (aligned : frameAddress (frameOf call.table) = call.table) (ready : Ready m.core (m.core.target call.table) mirror)
  (edit : Editable m.core (m.core.target call.table) call.virtAddr)
include aligned ready edit

theorem exec_returns (supplied : call.Supplied m) : ∃ m', @TableCall.exec tableWalker call m = some ((), m') := by
  have enough : (pathTables (m.core.shut (m.core.target call.table)).mem (m.core.target call.table)
      (directories call.virtAddr) (m.core.shut (m.core.target call.table)).supply).length =
      (directories call.virtAddr).length := by
    rw [shut_supply, pathTables_shut edit ready.apart]
    exact supplied
  cases call with
  | mapPage table physAddr virtAddr prop =>
    obtain ⟨pt, c1, first⟩ := descend_enough (superProperties prop) _ enough
    have taken : mapPage (m.core.target table) physAddr virtAddr prop (m.core.shut (m.core.target table)) =
        some ((), c1.withMem (c1.mem.write pt (getTabIndex virtAddr) (pageCreate physAddr prop))) := by
      simp only [mapPage, Bind.bind, StateT.bind, TableCall.table, TableCall.virtAddr] at first ⊢
      rw [first]
      rfl
    obtain ⟨⟨⟩, m', done, -⟩ := (vmmMapPage_simulates physAddr prop aligned ready edit).yields taken
    exact ⟨m', done⟩
  | unmapPage table virtAddr =>
    obtain ⟨pt, c1, first⟩ := descend_enough (superProperties pageKernelWrite) _ enough
    obtain ⟨c', taken⟩ : ∃ c', removePage (m.core.target table) virtAddr (m.core.shut (m.core.target table)) =
        some ((), c') := by
      simp only [removePage, Bind.bind, StateT.bind, TableCall.table, TableCall.virtAddr] at first ⊢
      rw [first]
      exact ⟨_, rfl⟩
    obtain ⟨res, m', done, -⟩ := (vmmUnmapPage_simulates aligned ready edit).yields taken
    exact ⟨m', discard_eq done⟩

theorem exec_exact (outside : getPl4Index call.virtAddr ≠ recurseOther)
    (coherent : m.core.target call.table ≠ m.core.cr3 → call.Coherent m)
    (done : @TableCall.exec tableWalker call m = some ((), m')) : Exact (m.core.target call.table) m m' := by
  have away : gatePath (directories call.virtAddr) = false := by
    have active := edit.outside
    simp [gatePath, directories, outside, active]
  cases call with
  | mapPage table physAddr virtAddr prop =>
    obtain ⟨-, -, exact⟩ := (vmmMapPage_simulates physAddr prop aligned ready edit).source done
    exact exact coherent fun _ => away
  | unmapPage table virtAddr =>
    obtain ⟨res, done⟩ := discard_some done
    obtain ⟨-, -, exact⟩ := (vmmUnmapPage_simulates aligned ready edit).source done
    exact exact coherent fun _ => away

/-- Where the TLB holds nothing out of date, a processor that uses it does what the tables say. -/
theorem exec_walked [Processor] (off : Processor.writeProtect = false) (supplied : call.Supplied m)
    (outside : getPl4Index call.virtAddr ≠ recurseOther)
    (coherent : m.core.target call.table ≠ m.core.cr3 → call.Coherent m) (done : call.exec m = some ((), m')) :
    @TableCall.exec tableWalker call m = some ((), m') := by
  obtain ⟨m1, walked⟩ := exec_returns aligned ready edit supplied
  obtain ⟨new, log, exact⟩ := exec_exact aligned ready edit outside coherent walked
  obtain ⟨new', log', same⟩ := exec_follows off call m () m1 walked
  cases List.append_cancel_left (log.symm.trans log')
  have again := same fun x member gate h kept => (exact x member gate).2 h kept
  rw [done] at again
  cases again
  exact walked

end Calls

/-- A processor whose TLB answers the page `q` with `h` as long as it may hold that. -/
@[reducible] def lingering (q : PageNumber) (h : Frame) : Processor where
  writeProtect := false
  answer m p := if throughGate p = true ∧ p = q ∧ h ∈ m.retained p then some h else m.walked p
  held m p := by
    split
    · rename_i lingers
      exact .inr ⟨lingers.1, h, lingers.2.2, rfl⟩
    · exact .inl rfl

section Lingering

variable {m m' : Machine} {c : Core} {q : PageNumber} {g h t1 t2 t3 mirror : Frame} {table v physAddr : W64}
  {prop : PageProperties}

theorem Reaches.lingering (reaches : Reaches c table g) (other : pageNumber table ≠ q) :
    @Finds (lingering q h) c table g := by
  obtain ⟨aligned, entries, found⟩ := reaches
  refine @Finds.mk (Virtual.lingering q h) c table g aligned fun m core => ?_
  have walked : m.walked (pageNumber table) = some g := by
    rw [Machine.walked, core, found]
    rfl
  exact (if_neg fun lingers => other lingers.2.1).trans walked

theorem store_keeps {addr value : W64} (done : store addr value m = some ((), m')) (kept : (q, h) ∈ m.tlb) :
    (q, h) ∈ m'.tlb := by
  rw [store_unprotected rfl] at done
  obtain ⟨f, m1, used, stored⟩ := bind_some done
  obtain ⟨_, -, same⟩ := Option.map_eq_some_iff.mp used
  cases same
  cases stored
  exact List.mem_cons_of_mem _ kept

/-- The mapping of a page in an inactive space leaves its last table in the TLB. -/
theorem vmmMapPage_leaves (aligned : frameAddress (frameOf table) = table)
    (ready : Ready m.core (m.core.target table) mirror) (inactive : m.core.target table ≠ m.core.cr3)
    (edit : Editable m.core (m.core.target table) v)
    (away : pageNumber (window recurseOther (directories v)) ≠ pageNumber v)
    (done : vmmMapPage table physAddr v prop m = some ((), m')) :
    ∃ pt c, descend (superProperties prop) (m.core.target table) (directories v)
        (m.core.setOther (pageCreate table prop)) = some (pt, c) ∧
      (pageNumber (window recurseOther (directories v)), pt) ∈ m'.tlb := by
  have apart := ready.apart inactive
  unfold vmmMapPage at done
  obtain ⟨_, m0, asked, done⟩ := bind_some done
  cases asked
  rw [if_neg (mt (active_iff aligned).mp inactive), otherLink_eq] at done
  obtain ⟨⟨⟩, n1, opened, done⟩ := bind_some done
  obtain ⟨⟨⟩, n2, reloaded, done⟩ := bind_some done
  obtain ⟨⟨⟩, n3, implemented, done⟩ := bind_some done
  obtain ⟨⟨⟩, n4, closed, last⟩ := bind_some done
  have core1 := ((store_otherSlot ready.active (pageCreate table prop)).outcome opened).1
  have core2 := ((vmmReloadTlb_yields _).outcome reloaded).1.trans core1
  have gate := ready.gate_other (target_eq aligned inactive) prop
  have backed : Backed (m.core.setOther (pageCreate table prop)) mirror := ready.backed.setOther
  have there := edit.setOther apart (pageCreate table prop)
  rw [← core2] at gate backed there
  obtain ⟨address, n2', nested, stored⟩ := bind_some implemented
  obtain ⟨pt, taken, rfl, -⟩ := (vmmGetMostNestedTable_simulates gate backed there.space there.outside there.way prop).source
    nested
  obtain ⟨grows, place⟩ := there.descend taken
  have written := store_entry (reaches_window (gate.grows backed.unused grows) place) (getTabIndex v) (pageCreate physAddr prop)
  refine ⟨pt, n2'.core, by rw [← core2]; exact taken, ?_⟩
  have held : (pageNumber (window recurseOther (directories v)), pt) ∈ n3.tlb := by
    cases written.symm.trans stored
    exact List.mem_cons_self
  cases last
  exact List.mem_filter.mpr ⟨store_keeps closed held, by simpa using away⟩

/-- While the TLB holds another table for the window of the last one, the entry goes there. -/
theorem vmmMapPage_lingers (physAddr : W64) (prop : PageProperties) (aligned : frameAddress (frameOf table) = table)
    (ready : Ready m.core (m.core.target table) mirror) (inactive : m.core.target table ≠ m.core.cr3)
    (outside : getPl4Index v ≠ recurseActive) (chain : Chain m.core.mem v (m.core.target table) t1 t2 t3)
    (kept : (pageNumber (window recurseOther (directories v)), h) ∈ m.tlb) (other : m.core.cr3 ≠ h) :
    Yields m (@vmmMapPage (lingering (pageNumber (window recurseOther (directories v))) h) table physAddr v prop)
      fun _ m' => m'.core = ((m.core.setOther (pageCreate table prop)).withMem
        ((m.core.setOther (pageCreate table prop)).mem.write h (getTabIndex v) (pageCreate physAddr prop))).setOther 0#64 := by
  let cpu := lingering (pageNumber (window recurseOther (directories v))) h
  have apart := ready.apart inactive
  have asked : readCr3 m = some (frameAddress m.core.cr3, m) := rfl
  have gate := ready.gate_other (target_eq aligned inactive) prop
  have opened := chain.setOther outside apart (pageCreate table prop)
  have through : throughGate (pageNumber (window recurseOther (directories v))) = true := throughGate_window (Nat.le_refl 3)
  have activeLink : pageNumber (window recurseActive []) ≠ pageNumber (window recurseOther (directories v)) := by
    intro same
    rw [← same, throughGate_active] at through
    cases through
  have upper {xs : List Index} (short : xs.length ≤ 2) :
      pageNumber (window recurseOther xs) ≠ pageNumber (window recurseOther (directories v)) := by
    intro same
    have three : (directories v).length = 3 := rfl
    have lengths := congrArg List.length (window_injective (by omega) (by omega) same)
    omega
  have top : follow branches (m.core.setOther (pageCreate table prop)).mem 3 (m.core.target table) [] =
      some (m.core.target table) := rfl
  unfold vmmMapPage
  refine .after asked ?_
  rw [if_neg (mt (active_iff aligned).mp inactive), otherLink_eq]
  refine (@store_otherSlot_stale _ _ _ _ _ cpu rfl (.refl kept) ((reaches_activeLink ready.active).lingering activeLink)
    (pageCreate table prop)).bind ?_
  intro _ n1 stale
  refine (vmmReloadTlb_stale stale (upper (by simp)).symm).bind ?_
  intro _ n2 stale
  have implemented : Yields n2 (@vmmMapPageImpl cpu (window recurseOther []) physAddr v prop) fun _ n4 =>
      n4.core = (m.core.setOther (pageCreate table prop)).withMem
        ((m.core.setOther (pageCreate table prop)).mem.write h (getTabIndex v) (pageCreate physAddr prop)) ∧
      (pageNumber (window recurseOther (directories v)), h) ∈ n4.tlb := by
    refine (@vmmGetMostNestedTable_stale _ _ _ _ _ _ _ _ _ _ cpu ((reaches_window gate top).lingering (upper (by simp)))
      ((reaches_window gate (opened.pointers outside)).lingering (upper (by simp)))
      ((reaches_window gate (opened.directory outside)).lingering (upper (by simp))) opened stale prop).bind ?_
    rintro _ n3 ⟨rfl, ⟨core, held, -⟩, -⟩
    have answer : cpu.answer n3 (pageNumber (window recurseOther (directories v))) = some h :=
      if_pos ⟨through, rfl, by simpa [Machine.retained] using held⟩
    refine .of_eq (@store_answered cpu _ _ _ (tableAddress_aligned _ _ _ _) answer rfl _ _) ⟨?_, ?_⟩
    · rw [← core]
      rfl
    · exact List.mem_cons_self
  refine implemented.bind ?_
  rintro _ n4 ⟨core, held⟩
  have active : Links n4.core.mem n4.core.cr3 recurseActive n4.core.cr3 := by
    rw [core]
    exact (setOther_links ready.active (by decide)).congr (write_of_ne fun both => other both.1)
  refine (@store_otherSlot_stale _ _ _ _ _ cpu rfl (.refl held) ((reaches_activeLink active).lingering activeLink)
    0#64).bind ?_
  rintro _ n5 ⟨closed, -⟩
  refine .of_eq rfl ?_
  rw [← core]
  exact closed

end Lingering

end Neutrino.Virtual
