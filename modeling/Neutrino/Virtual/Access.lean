import Neutrino.Library.Partial
import Neutrino.Virtual.Model

namespace Neutrino.Virtual

open Library

/-- An entry that refers to a table. -/
structure Links (mem : Mem) (g : Frame) (i : Index) (h : Frame) : Prop where
  present : isPresent (mem g i) = true
  small : isHuge (mem g i) = false
  frame : frameOf (mem g i) = h

section Walks

variable {mem : Mem} {a b c d : Frame} {w x y z : Index}

theorem hardware_links {level : Nat} (links : Links mem a w b) (low : 1 ≤ level) (high : level ≤ 3) :
    hardware level w (mem a w) = .table b := by
  unfold hardware
  rw [if_pos links.present]
  match level, low, high with
  | 1, _, _ | 2, _, _ | 3, _, _ => simp only [links.small, Bool.false_eq_true, ↓reduceIte, links.frame]

theorem hardware_absent {level : Nat} {i : Index} {e : W64} (absent : isPresent e = false) :
    hardware level i e = .empty := by
  simp only [hardware, absent, Bool.false_eq_true, ↓reduceIte]

theorem walk_tableAddress (upper : 256 ≤ w.toNat) (first : Links mem a w b) (second : Links mem b x c)
    (third : Links mem c y d) (present : isPresent (mem d z) = true) :
    walk mem a (pageNumber (tableAddress w x y z)) =
      some ⟨[mem a w, mem b x, mem c y, mem d z], frameOf (mem d z)⟩ := by
  have last : hardware 0 z (mem d z) = .page := by simp only [hardware, present, ↓reduceIte]
  simp only [walk, canonical_tableAddress w x y z upper, ↓reduceIte, indices_tableAddress, lookup,
    List.length_cons, List.length_nil, Nat.zero_add, Nat.reduceAdd,
    hardware_links first (by decide : 1 ≤ 3) (by decide),
    hardware_links second (by decide : 1 ≤ 2) (by decide),
    hardware_links third (Nat.le_refl 1) (by decide), last, Option.map_some]
  rfl

/-- A frame that the mirror of physical memory at `PERM_OFFSET` shows, through the table `mirror`. -/
structure Mirrored (mem : Mem) (mirror f : Frame) : Prop where
  small : f.toNat < 2 ^ 27
  present : isPresent (mem mirror (f.extractLsb' 18 9)) = true
  huge : isHuge (mem mirror (f.extractLsb' 18 9)) = true
  frame : (frameOf (mem mirror (f.extractLsb' 18 9))).extractLsb' 18 22 = f.extractLsb' 18 22

def permSlot : Index := 272#9

theorem walk_huge {root mirror f : Frame} {base : W64} (high : 2 ^ 64 - 2 ^ 47 ≤ base.toNat)
    (aligned : base.toNat % 2 ^ 39 = 0) (links : Links mem root (base.extractLsb' 39 9) mirror)
    (mirrored : Mirrored mem mirror f) :
    ∃ entries, walk mem root (pageNumber (frameAddress f + base)) = some ⟨entries, f⟩ := by
  have last : hardware 2 (f.extractLsb' 18 9) (mem mirror (f.extractLsb' 18 9)) = .page := by
    simp only [hardware, mirrored.present, mirrored.huge, ↓reduceIte]
  have inside : canonical (pageNumber (frameAddress f + base)) = true := canonical_window high aligned mirrored.small
  have path := indices_window high aligned mirrored.small
  refine ⟨[mem root (base.extractLsb' 39 9), mem mirror (f.extractLsb' 18 9)], ?_⟩
  simp only [walk, inside, ↓reduceIte, path, lookup, List.length_cons,
    List.length_nil, Nat.zero_add, Nat.reduceAdd, hardware_links links (by decide : 1 ≤ 3) (by decide),
    last, Option.map_some, List.getLastD_cons, List.getLastD_nil, pageFrame, mirrored.frame]
  exact congrArg (fun frame => some (Translation.mk _ frame)) (frame_parts f)

theorem walk_perm {root mirror f : Frame} (links : Links mem root permSlot mirror)
    (mirrored : Mirrored mem mirror f) :
    ∃ entries, walk mem root (pageNumber (getPermAddress (frameAddress f))) = some ⟨entries, f⟩ :=
  walk_huge (by decide) (by decide) links mirrored

end Walks

section Writes

variable {mem : Mem} {g h : Frame} {i j : Index} {e : W64}

theorem write_apply : mem.write g i e h j = if h = g ∧ j = i then e else mem h j := by
  unfold Mem.write
  by_cases table : h = g
  · subst table
    by_cases entry : j = i
    · simp [entry]
    · simp [entry]
  · simp [table]

@[simp] theorem write_self : mem.write g i e g i = e := by simp [write_apply]

theorem write_of_ne (other : ¬ (h = g ∧ j = i)) : mem.write g i e h j = mem h j := by
  rw [write_apply, if_neg other]

theorem write_comm {e' : W64} (apart : g ≠ h) :
    (mem.write g i e).write h j e' = (mem.write h j e').write g i e := by
  funext k l
  rw [write_apply, write_apply, write_apply, write_apply]
  by_cases first : k = g ∧ l = i
  · have other : ¬ (k = h ∧ l = j) := fun both => apart (first.1.symm.trans both.1)
    rw [if_neg other, if_pos first, if_pos first]
  · rw [if_neg first, if_neg first]

theorem Links.congr {mem' : Mem} (links : Links mem g i h) (same : mem' g i = mem g i) :
    Links mem' g i h := by
  refine ⟨?_, ?_, ?_⟩
  · rw [same, links.present]
  · rw [same, links.small]
  · rw [same, links.frame]

theorem links_pageCreate (prop : PageProperties) (same : mem g i = pageCreate (frameAddress h) prop) :
    Links mem g i h := by
  refine ⟨?_, ?_, ?_⟩
  · rw [same, isPresent_pageCreate]
  · rw [same, isHuge_pageCreate]
  · rw [same, frameOf_pageCreate, frameOf_frameAddress]

end Writes

/-- A pointer to a table that the active tables map to the frame. -/
structure Reaches (c : Core) (table : W64) (g : Frame) : Prop where
  aligned : table.toNat % 4096 = 0
  walk : ∃ entries, walk c.mem c.cr3 (pageNumber table) = some ⟨entries, g⟩

/-- A pointer to a table that the processor takes to the frame. -/
structure Finds [Processor] (c : Core) (table : W64) (g : Frame) : Prop where
  aligned : table.toNat % 4096 = 0
  answer : ∀ m : Machine, m.core = c → Processor.answer m (pageNumber table) = some g

theorem Reaches.finds {c : Core} {table : W64} {g : Frame} (reaches : Reaches c table g) : Finds c table g := by
  obtain ⟨aligned, entries, found⟩ := reaches
  refine ⟨aligned, fun m core => ?_⟩
  simp only [Processor.answer, Machine.walked, core, found, Option.map_some]

section Answers

variable [Processor] {m : Machine} {table : W64} {g : Frame} (aligned : table.toNat % 4096 = 0)
  (answer : Processor.answer m (pageNumber table) = some g)
include aligned answer

theorem access_answered (i : Index) :
    access (entryAddress table (i.setWidth 64)) m = some (g, m.used (pageNumber table) g) := by
  simp only [access, pageNumber_entryAddress aligned, answer, Option.map_some]

theorem load_answered (i : Index) :
    load (entryAddress table (i.setWidth 64)) m =
      some (m.core.mem g i, m.used (pageNumber table) g) := by
  simp only [load, Bind.bind, StateT.bind, access_answered aligned answer, Option.bind,
    wordIndex_entryAddress aligned]
  rfl

omit aligned answer in
theorem store_unprotected (off : Processor.writeProtect = false) (addr value : W64) : store addr value = (do
    let f ← access addr
    modify fun m => m.withCore (m.core.withMem (m.core.mem.write f (wordIndex addr) value)) : VmmM Unit) := by
  funext m
  unfold store
  simp only [off, Bool.false_and, Bool.false_eq_true, ↓reduceIte]
  rfl

theorem store_answered (off : Processor.writeProtect = false) (i : Index) (value : W64) :
    store (entryAddress table (i.setWidth 64)) value m =
      some ((), (m.used (pageNumber table) g).withCore
        (m.core.withMem (m.core.mem.write g i value))) := by
  rw [store_unprotected off]
  simp only [Bind.bind, StateT.bind, access_answered aligned answer, Option.bind, wordIndex_entryAddress aligned]
  rfl

end Answers

section Entries

variable {m : Machine} {table : W64} {g : Frame}

theorem load_entry (reaches : Reaches m.core table g) (i : Index) :
    load (entryAddress table (i.setWidth 64)) m =
      some (m.core.mem g i, m.used (pageNumber table) g) :=
  load_answered reaches.aligned (reaches.finds.answer m rfl) i

theorem store_entry (reaches : Reaches m.core table g) (i : Index) (value : W64) :
    store (entryAddress table (i.setWidth 64)) value m =
      some ((), (m.used (pageNumber table) g).withCore
        (m.core.withMem (m.core.mem.write g i value))) :=
  store_answered reaches.aligned (reaches.finds.answer m rfl) rfl i value

end Entries

/-- Nothing goes through the gate. -/
structure Silent (m m' : Machine) : Prop where
  log : ∃ new, m'.log = m.log ++ new ∧ ∀ a ∈ new, throughGate a.page = false
  tlb : ∀ q h, throughGate q = true → (q, h) ∈ m'.tlb → (q, h) ∈ m.tlb

/-- What goes through the gate is the page `q`, and it is the frame `g` there. -/
structure Traced (m m' : Machine) (q : PageNumber) (g : Frame) : Prop where
  log : ∃ new, m'.log = m.log ++ new ∧ ∀ a ∈ new, throughGate a.page = true →
    a.page = q ∧ a.frame = g ∧ a.mem = m.core.mem ∧ ∀ h ∈ a.retained, h = g ∨ (q, h) ∈ m.tlb
  tlb : ∀ q' h, throughGate q' = true → (q', h) ∈ m'.tlb → (q', h) ∈ m.tlb ∨ q' = q ∧ h = g

section Traces

variable {m m' m'' : Machine} {q : PageNumber} {g : Frame}

theorem Silent.of_eq (log : m'.log = m.log) (tlb : ∀ q h, (q, h) ∈ m'.tlb → (q, h) ∈ m.tlb) :
    Silent m m' :=
  ⟨⟨[], by rw [log, List.append_nil], by simp⟩, fun q h _ => tlb q h⟩

theorem Silent.refl (m : Machine) : Silent m m := .of_eq rfl fun _ _ member => member

theorem Silent.trans (first : Silent m m') (second : Silent m' m'') : Silent m m'' := by
  obtain ⟨new, here, quiet⟩ := first.log
  obtain ⟨new', there, quiet'⟩ := second.log
  refine ⟨⟨new ++ new', by rw [there, here, List.append_assoc], fun a member => ?_⟩, ?_⟩
  · rcases List.mem_append.mp member with member | member
    · exact quiet a member
    · exact quiet' a member
  · exact fun q h gate member => first.tlb q h gate (second.tlb q h gate member)

theorem Traced.trans (first : Traced m m' q g) (same : m'.core.mem = m.core.mem)
    (second : Traced m' m'' q g) : Traced m m'' q g := by
  obtain ⟨new, here, traced⟩ := first.log
  obtain ⟨new', there, traced'⟩ := second.log
  -- what the second part may find in the TLB was there at first or was put there by the first
  have before : ∀ h, throughGate q = true → (q, h) ∈ m'.tlb → h = g ∨ (q, h) ∈ m.tlb := by
    intro h gate member
    rcases first.tlb q h gate member with old | ⟨-, rfl⟩
    · exact .inr old
    · exact .inl rfl
  refine ⟨⟨new ++ new', by rw [there, here, List.append_assoc], fun a member gate => ?_⟩, ?_⟩
  · rcases List.mem_append.mp member with member | member
    · exact traced a member gate
    · obtain ⟨page, frame, mem, retained⟩ := traced' a member gate
      refine ⟨page, frame, mem.trans same, fun h kept => ?_⟩
      rcases retained h kept with rfl | old
      · exact .inl rfl
      · exact before h (page ▸ gate) old
  · intro q' h gate member
    rcases second.tlb q' h gate member with old | new
    · exact first.tlb q' h gate old
    · exact .inr new

theorem Traced.trans_silent (first : Traced m m' q g) (second : Silent m' m'') : Traced m m'' q g := by
  obtain ⟨new, here, traced⟩ := first.log
  obtain ⟨new', there, quiet⟩ := second.log
  refine ⟨⟨new ++ new', by rw [there, here, List.append_assoc], fun a member gate => ?_⟩, ?_⟩
  · rcases List.mem_append.mp member with member | member
    · exact traced a member gate
    · rw [quiet a member] at gate
      cases gate
  · exact fun q' h gate member => first.tlb q' h gate (second.tlb q' h gate member)

theorem traced_used (m : Machine) (q : PageNumber) (g : Frame) (c : Core) :
    Traced m ((m.used q g).withCore c) q g where
  log := by
    refine ⟨[⟨q, g, m.retained q, m.core.mem⟩], rfl, fun a member _ => ?_⟩
    cases List.mem_singleton.mp member
    refine ⟨rfl, rfl, rfl, fun h kept => .inr ?_⟩
    simpa [Machine.retained] using kept
  tlb q' h _ member := by
    rcases List.mem_cons.mp member with same | old
    · cases same
      exact .inr ⟨rfl, rfl⟩
    · exact .inl old

theorem silent_used (m : Machine) {q : PageNumber} (outside : throughGate q = false) (g : Frame)
    (c : Core) : Silent m ((m.used q g).withCore c) where
  log := by
    refine ⟨[⟨q, g, m.retained q, m.core.mem⟩], rfl, fun a member => ?_⟩
    cases List.mem_singleton.mp member
    exact outside
  tlb q' h gate member := by
    rcases List.mem_cons.mp member with same | old
    · cases same
      rw [gate] at outside
      cases outside
    · exact old

end Traces

end Neutrino.Virtual
