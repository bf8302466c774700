import Neutrino.Virtual.Tables

namespace Neutrino.Virtual

open Library

/-- The mirror at `PERM_OFFSET`, through the table `mirror`, shows the frames of the supply. -/
structure Backed (c : Core) (mirror : Frame) : Prop where
  initialized : c.initialized = true
  links : Links c.mem c.cr3 permSlot mirror
  mirrored : ∀ f ∈ c.supply, Mirrored c.mem mirror f
  apart : ∀ f ∈ c.supply, f ≠ c.cr3 ∧ f ≠ mirror
  below : mirror ≠ c.cr3

section Clear

variable {m : Machine} {dest : W64} {f : Frame}

theorem ofNat_index {i : Nat} (small : i < 512) : BitVec.ofNat 64 i = (BitVec.ofNat 9 i).setWidth 64 := by
  apply BitVec.eq_of_toNat_eq
  simp only [BitVec.toNat_ofNat, BitVec.toNat_setWidth]
  omega

def cleared (mem : Mem) (f : Frame) (words : List Nat) : Mem := fun h j =>
  if h = f ∧ j.toNat ∈ words then 0#64 else mem h j

theorem cleared_nil (mem : Mem) : cleared mem f [] = mem := by
  funext h j
  simp [cleared]

theorem cleared_cons (mem : Mem) {i : Nat} (small : i < 512) (words : List Nat) :
    cleared (mem.write f (BitVec.ofNat 9 i) 0#64) f words = cleared mem f (i :: words) := by
  funext h j
  have index : j = BitVec.ofNat 9 i ↔ j.toNat = i := by
    rw [← BitVec.toNat_inj, BitVec.toNat_ofNat]
    omega
  simp only [cleared, write_apply, List.mem_cons, index]
  by_cases table : h = f
  · by_cases here : j.toNat = i
    · simp [table, here]
    · simp [table, here]
  · simp [table]

theorem cleared_range (mem : Mem) : cleared mem f (List.range 512) = Function.update mem f fun _ => 0#64 := by
  funext h j
  have bound := j.isLt
  by_cases table : h = f
  · subst table
    simp [cleared, List.mem_range, bound]
  · simp [cleared, table]

theorem clear_yields (words : List Nat) (small : ∀ i ∈ words, i < 512)
    (outside : throughGate (pageNumber dest) = false)
    (reaches : ∀ mem, (∀ h, h ≠ f → mem h = m.core.mem h) → Reaches (m.core.withMem mem) dest f) :
    Yields m (words.forM fun i => store (entryAddress dest (BitVec.ofNat 64 i)) 0#64) fun _ m' =>
      m'.core = m.core.withMem (cleared m.core.mem f words) ∧ Silent m m' := by
  induction words generalizing m with
  | nil => exact ⟨(), m, rfl, by rw [cleared_nil]; rfl, .refl m⟩
  | cons i words ih =>
    have bound := small i List.mem_cons_self
    have first := store_entry (reaches m.core.mem fun _ _ => rfl) (BitVec.ofNat 9 i) 0#64
    rw [← ofNat_index bound] at first
    refine .after first ?_
    have again : ∀ mem, (∀ h, h ≠ f → mem h = m.core.mem.write f (BitVec.ofNat 9 i) 0#64 h) →
        Reaches (m.core.withMem mem) dest f := by
      intro mem same
      refine reaches mem fun h other => ?_
      rw [same h other, Mem.write, Function.update_of_ne other]
    refine Yields.mono (ih (fun j member => small j (List.mem_cons_of_mem i member)) again) ?_
    rintro ⟨⟩ m'' ⟨core, silent⟩
    refine ⟨?_, (silent_used m outside f _).trans silent⟩
    rw [core, ← cleared_cons m.core.mem bound]
    rfl

theorem throughGate_perm (small : f.toNat < 2 ^ 27) :
    throughGate (pageNumber (getPermAddress (frameAddress f))) = false := by
  have slot : permOffset.extractLsb' 39 9 = permSlot := by decide
  rw [throughGate, getPermAddress, indices_window (by decide) (by decide) small, slot]
  rfl

theorem Links.of_row {mem mem' : Mem} {g h : Frame} {i : Index} (links : Links mem g i h)
    (same : mem' g = mem g) : Links mem' g i h := links.congr (congrFun same i)

theorem Mirrored.of_row {mem mem' : Mem} {mirror : Frame} (mirrored : Mirrored mem mirror f)
    (same : mem' mirror = mem mirror) : Mirrored mem' mirror f := by
  refine ⟨mirrored.small, ?_, ?_, ?_⟩
  · rw [same, mirrored.present]
  · rw [same, mirrored.huge]
  · rw [same, mirrored.frame]

theorem reaches_perm {c : Core} {mirror : Frame} (links : Links c.mem c.cr3 permSlot mirror)
    (mirrored : Mirrored c.mem mirror f) : Reaches c (getPermAddress (frameAddress f)) f :=
  ⟨window_aligned (by decide) (by decide) mirrored.small, walk_perm links mirrored⟩

theorem memoryClear_yields {mirror : Frame} (links : Links m.core.mem m.core.cr3 permSlot mirror)
    (mirrored : Mirrored m.core.mem mirror f) (root : f ≠ m.core.cr3) (other : f ≠ mirror) :
    Yields m (memoryClear (getPermAddress (frameAddress f)) (pageSize / 8)) fun _ m' =>
      m'.core = m.core.withMem (Function.update m.core.mem f fun _ => 0#64) ∧ Silent m m' := by
  rw [← cleared_range]
  apply clear_yields
  · exact fun i member => List.mem_range.mp member
  · exact throughGate_perm mirrored.small
  · intro mem same
    exact reaches_perm (links.of_row (same _ root.symm)) (mirrored.of_row (same _ other.symm))

end Clear

section Entries

variable {m : Machine} {table : W64} {g mirror : Frame} {i : Index}

theorem mirrored_write {mem : Mem} {f : Frame} {e : W64} (mirrored : Mirrored mem mirror f)
    (absent : isPresent (mem g i) = false) : Mirrored (mem.write g i e) mirror f := by
  have same : mem.write g i e mirror (f.extractLsb' 18 9) = mem mirror (f.extractLsb' 18 9) := by
    apply write_of_ne
    rintro ⟨rfl, rfl⟩
    rw [mirrored.present] at absent
    cases absent
  refine ⟨mirrored.small, ?_, ?_, ?_⟩
  · rw [same, mirrored.present]
  · rw [same, mirrored.huge]
  · rw [same, mirrored.frame]

theorem links_write {mem : Mem} {a b : Frame} {j : Index} {e : W64} (links : Links mem a j b)
    (absent : isPresent (mem g i) = false) : Links (mem.write g i e) a j b := by
  apply links.congr
  apply write_of_ne
  rintro ⟨rfl, rfl⟩
  rw [links.present] at absent
  cases absent

theorem pmmAlloc_nil (empty : m.core.supply = []) : pmmAlloc m = none := by
  simp only [pmmAlloc, empty]

theorem pmmAlloc_cons {f : Frame} {rest : List Frame} (supply : m.core.supply = f :: rest) :
    pmmAlloc m = some (frameAddress f, m.withCore (m.core.withSupply rest)) := by
  simp only [pmmAlloc, supply]

theorem pmmAlloc_some {a : W64} {m' : Machine} (taken : pmmAlloc m = some (a, m')) : ∃ f rest,
    m.core.supply = f :: rest ∧ a = frameAddress f ∧ m' = m.withCore (m.core.withSupply rest) := by
  cases supply : m.core.supply with
  | nil =>
    rw [pmmAlloc_nil supply] at taken
    cases taken
  | cons f rest =>
    rw [pmmAlloc_cons supply] at taken
    obtain ⟨rfl, rfl⟩ := Prod.mk.inj (Option.some.inj taken)
    exact ⟨f, rest, rfl, rfl, rfl⟩

theorem vmmCreateEntry_simulates (reaches : Reaches m.core table g) (backed : Backed m.core mirror)
    (absent : isPresent (m.core.mem g i) = false) (prop : PageProperties) :
    Simulates Machine.core m (vmmCreateEntry table (i.setWidth 64) prop) (create prop g i)
      fun _ _ m' => Traced m m' (pageNumber table) g ∧ m'.tlb = [] := by
  unfold Simulates create vmmCreateEntry
  cases supply : m.core.supply with
  | nil => simp only [Bind.bind, StateT.bind, pmmAlloc_nil supply, Option.bind]
  | cons f rest =>
    have first := first_mem supply
    refine .after (pmmAlloc_cons supply) ?_
    simp only [getRmemAddress_getMemAddress]
    have still : Reaches (m.withCore (m.core.withSupply rest)).core table g :=
      ⟨reaches.aligned, reaches.walk⟩
    refine .after (store_entry still i _) ?_
    refine .get ?_
    split
    case isFalse off => exact absurd backed.initialized off
    -- the new table is cleared through the mirror, which the write into `g` has not touched
    have clear := memoryClear_yields (m := (m.withCore (m.core.withSupply rest)).used (pageNumber table) g
      |>.withCore ((m.core.withSupply rest).withMem
        (m.core.mem.write g i (pageCreate (frameAddress f) prop))))
      (links_write backed.links absent) (mirrored_write (backed.mirrored f first) absent)
      (backed.apart f first).1 (backed.apart f first).2
    refine clear.bind ?_
    rintro ⟨⟩ m' ⟨core, silent⟩
    refine .after (a := ()) rfl (.pure ⟨?_, ?_, rfl⟩)
    · exact core
    · have used := traced_used m (pageNumber table) g
        ((m.core.withSupply rest).withMem (m.core.mem.write g i (pageCreate (frameAddress f) prop)))
      exact (used.trans_silent silent).trans_silent (.of_eq rfl fun _ _ member => by cases member)

theorem vmmGetOrCreateEntry_simulates (reaches : Reaches m.core table g) (backed : Backed m.core mirror)
    (prop : PageProperties) :
    Simulates Machine.core m (vmmGetOrCreateEntry table (i.setWidth 64) prop) (ensure prop g i)
      fun _ _ m' => Traced m m' (pageNumber table) g ∧
        (isPresent (m.core.mem g i) = false → m'.tlb = []) := by
  have again : Reaches (m.used (pageNumber table) g).core table g := reaches
  unfold vmmGetOrCreateEntry
  cases present : isPresent (m.core.mem g i) with
  | true =>
    unfold Simulates ensure
    simp only [present, if_true]
    refine .after (load_entry reaches i) ?_
    rw [if_pos present]
    refine .after (load_entry again i) (.pure ⟨rfl, ?_, nofun⟩)
    exact (traced_used m _ g m.core).trans rfl (traced_used _ _ g m.core)
  | false =>
    have same : ensure prop g i m.core = create prop g i m.core := by
      rw [ensure, if_neg (by rw [present]; decide)]
    refine Simulates.congr ?_ same
    refine .after (load_entry reaches i) rfl ?_
    rw [if_neg (by rw [present]; decide)]
    refine (vmmCreateEntry_simulates again backed present prop).mono ?_
    rintro _ _ m' - ⟨traced, flushed⟩
    exact ⟨(traced_used m _ g m.core).trans rfl traced, fun _ => flushed⟩

end Entries

/-- Where the slot `x` of the active PML4 shows the table at the place `xs` of its space. -/
def window (x : Index) : List Index → W64
  | [] => tableAddress recurseActive recurseActive recurseActive x
  | [a] => tableAddress recurseActive recurseActive x a
  | [a, b] => tableAddress recurseActive x a b
  | a :: b :: d :: _ => tableAddress x a b d

/-- The slot `x` of the active PML4 leads to the PML4 `t`. -/
structure Gate (c : Core) (x : Index) (t : Frame) : Prop where
  slot : x = recurseActive ∨ x = recurseOther
  active : Links c.mem c.cr3 recurseActive c.cr3
  target : Links c.mem c.cr3 x t

section Windows

variable {c c' : Core} {x a b d e : Index} {t mirror : Frame} {xs : List Index} {g h : Frame}

theorem reaches_links {w y z : Index} {f g h k : Frame} (upper : 256 ≤ w.toNat)
    (first : Links c.mem c.cr3 w f) (second : Links c.mem f x g) (third : Links c.mem g y h)
    (last : Links c.mem h z k) : Reaches c (tableAddress w x y z) k := by
  refine ⟨tableAddress_aligned w x y z, [c.mem c.cr3 w, c.mem f x, c.mem g y, c.mem h z], ?_⟩
  rw [walk_tableAddress upper first second third last.present, last.frame]

theorem reaches_window (gate : Gate c x t) (path : follow branches c.mem 3 t xs = some g) :
    Reaches c (window x xs) g := by
  have upper : 256 ≤ x.toNat := by
    rcases gate.slot with rfl | rfl <;> decide
  have top : 256 ≤ recurseActive.toNat := by decide
  match xs, path with
  | [], path =>
    cases path
    exact reaches_links top gate.active gate.active gate.active gate.target
  | [a], path =>
    obtain ⟨t1, here, rest⟩ := follow_cons_some path
    cases rest
    exact reaches_links top gate.active gate.active gate.target (branches_table here).1
  | [a, b], path =>
    obtain ⟨t1, first, path⟩ := follow_cons_some path
    obtain ⟨t2, second, rest⟩ := follow_cons_some path
    cases rest
    exact reaches_links top gate.active gate.target (branches_table first).1 (branches_table second).1
  | [a, b, d], path =>
    obtain ⟨t1, first, path⟩ := follow_cons_some path
    obtain ⟨t2, second, path⟩ := follow_cons_some path
    obtain ⟨t3, third, rest⟩ := follow_cons_some path
    cases rest
    exact reaches_links upper gate.target (branches_table first).1 (branches_table second).1
      (branches_table third).1
  | a :: b :: d :: e :: rest, path =>
    -- below the last level there are no tables
    obtain ⟨t1, first, path⟩ := follow_cons_some path
    obtain ⟨t2, second, path⟩ := follow_cons_some path
    obtain ⟨t3, third, path⟩ := follow_cons_some path
    obtain ⟨t4, fourth, path⟩ := follow_cons_some path
    have low := (branches_table fourth).2.1
    omega

theorem Backed.grows (backed : Backed c mirror) (grows : Grows t c c') : Backed c' mirror := by
  obtain ⟨root, on, -⟩ := grows.other
  have unused : ∀ {g}, g = c.cr3 ∨ g = mirror → g ∉ c.supply := by
    rintro g (rfl | rfl) member
    · exact (backed.apart _ member).1 rfl
    · exact (backed.apart _ member).2 rfl
  refine ⟨by rw [on, backed.initialized], ?_, fun f member => ?_, fun f member => ?_,
    by rw [root]; exact backed.below⟩
  · rw [root]
    exact grows.links (unused (.inl rfl)) backed.links
  · have mirrored := backed.mirrored f (grows.supply member)
    have same := grows.present (unused (.inr rfl)) mirrored.present
    exact ⟨mirrored.small, by rw [same, mirrored.present], by rw [same, mirrored.huge],
      by rw [same, mirrored.frame]⟩
  · rw [root]
    exact backed.apart f (grows.supply member)

theorem Backed.unused (backed : Backed c mirror) : c.cr3 ∉ c.supply :=
  fun member => (backed.apart _ member).1 rfl

theorem Gate.grows (gate : Gate c x t) (unused : c.cr3 ∉ c.supply) (grows : Grows t c c') :
    Gate c' x t := by
  obtain ⟨root, -⟩ := grows.other
  refine ⟨gate.slot, ?_, ?_⟩
  · rw [root]
    exact grows.links unused gate.active
  · rw [root]
    exact grows.links unused gate.target

theorem getRecursiveAddress_zero (w x y z : Index) :
    getRecursiveAddress w x y z 0#64 = tableAddress w x y z := by
  simp [getRecursiveAddress, entryAddress]

theorem getPagingPath_tableAddress (w x y z : Index) :
    getPagingPath (tableAddress w x y z) = ⟨w, x, y, z⟩ := by
  have path := indices_pageNumber (tableAddress w x y z)
  rw [indices_tableAddress] at path
  simp only [List.cons.injEq, and_true] at path
  obtain ⟨first, second, third, last⟩ := path
  simp only [getPagingPath, ← first, ← second, ← third, ← last]

end Windows

/-- The TLB holds for the windows of the tables on the path, so far as there are tables, no other
    frames. -/
def Coherent (m : Machine) (t : Frame) (path : List Index) : Prop :=
  ∀ xs g h, xs <+: path → follow branches m.core.mem 3 t xs = some g →
    (pageNumber (window recurseOther xs), h) ∈ m.tlb → h = g

/-- The same, except for the window of the PML4. -/
def CoherentBelow (m : Machine) (t : Frame) (path : List Index) : Prop :=
  ∀ xs g h, xs ≠ [] → xs <+: path → follow branches m.core.mem 3 t xs = some g →
    (pageNumber (window recurseOther xs), h) ∈ m.tlb → h = g

/-- A use that reaches a table of the space, whatever the TLB retains. -/
def Access.Proper (t : Frame) (a : Access) : Prop := ∀ f ∈ a.frame :: a.retained, IsTable a.mem t f

/-- What goes through the gate between two states reaches tables of `t`. -/
def Proper (t : Frame) (m m' : Machine) : Prop :=
  ∃ new, m'.log = m.log ++ new ∧ ∀ a ∈ new, throughGate a.page = true → a.Proper t

/-- The same, and the TLB retains nothing else for it. -/
def Exact (t : Frame) (m m' : Machine) : Prop :=
  ∃ new, m'.log = m.log ++ new ∧ ∀ a ∈ new, throughGate a.page = true →
    IsTable a.mem t a.frame ∧ ∀ h ∈ a.retained, h = a.frame

/-- The windows on the path show the tables of the space: those of the gate also by the TLB, and those
    of the active space without the gate. -/
structure Calm (x : Index) (t : Frame) (path : List Index) (m : Machine) : Prop where
  other : x = recurseOther → Coherent m t path
  active : x = recurseActive → gatePath path = false

/-- From such a state the code stays with the tables of `t` and leaves such a state. -/
def Orderly (x : Index) (t : Frame) (path : List Index) (m m' : Machine) : Prop :=
  Calm x t path m → Exact t m m' ∧ Calm x t path m'

section Orderly

variable {x : Index} {t g : Frame} {path xs : List Index} {m m' m'' : Machine}

theorem Exact.proper (exact : Exact t m m') : Proper t m m' := by
  obtain ⟨new, log, uses⟩ := exact
  refine ⟨new, log, fun a member gate f used => ?_⟩
  obtain ⟨table, retained⟩ := uses a member gate
  rcases List.mem_cons.mp used with rfl | kept
  · exact table
  · rw [retained f kept]
    exact table

theorem Exact.trans (first : Exact t m m') (second : Exact t m' m'') : Exact t m m'' := by
  obtain ⟨new, log, uses⟩ := first
  obtain ⟨new', log', uses'⟩ := second
  refine ⟨new ++ new', by rw [log', log, List.append_assoc], fun a member gate => ?_⟩
  rcases List.mem_append.mp member with member | member
  · exact uses a member gate
  · exact uses' a member gate

theorem Silent.exact (silent : Silent m m') : Exact t m m' := by
  obtain ⟨new, log, quiet⟩ := silent.log
  refine ⟨new, log, fun a member gate => ?_⟩
  rw [quiet a member] at gate
  cases gate

theorem Orderly.trans (first : Orderly x t path m m') (second : Orderly x t path m' m'') :
    Orderly x t path m m'' := by
  intro calm
  obtain ⟨exact, middle⟩ := first calm
  obtain ⟨exact', final⟩ := second middle
  exact ⟨exact.trans exact', final⟩

theorem indices_windowOf (short : xs.length ≤ 3) : indices (pageNumber (window x xs)) =
    List.replicate (3 - xs.length) recurseActive ++ x :: xs := by
  match xs, short with
  | [], _ | [a], _ | [a, b], _ | [a, b, d], _ => simp [window, indices_tableAddress, List.replicate]

theorem gatePath_replicate (n : Nat) (xs : List Index) :
    gatePath (List.replicate n recurseActive ++ recurseOther :: xs) = true := by
  induction n with
  | zero => simp [gatePath]
  | succ n ih => simp [List.replicate_succ, gatePath, ih]

theorem throughGate_window (short : xs.length ≤ 3) :
    throughGate (pageNumber (window recurseOther xs)) = true := by
  rw [throughGate, indices_windowOf short, gatePath_replicate]

theorem window_injective {ys : List Index} (short : xs.length ≤ 3) (short' : ys.length ≤ 3)
    (same : pageNumber (window recurseOther xs) = pageNumber (window recurseOther ys)) : xs = ys := by
  -- the path is what stands behind the run of 510 and the 509
  have strip : ∀ n (zs : List Index), ((List.replicate n recurseActive ++ recurseOther :: zs).dropWhile
      (· == recurseActive)).tail = zs := by
    intro n zs
    have other : (recurseOther == recurseActive) = false := by decide
    induction n with
    | zero => simp [other]
    | succ n ih => simpa [List.replicate_succ] using ih
  have pages := congrArg indices same
  rw [indices_windowOf short, indices_windowOf short'] at pages
  rw [← strip (3 - xs.length) xs, pages, strip]

theorem gatePath_active (n : Nat) (xs : List Index) : gatePath (List.replicate n recurseActive ++ xs) = gatePath xs := by
  have other : (recurseActive == recurseOther) = false := by decide
  induction n with
  | zero => rfl
  | succ n ih => simp [List.replicate_succ, gatePath, other, ih]

theorem gatePath_start {ys : List Index} (below : xs <+: ys) (gate : gatePath xs = true) : gatePath ys = true := by
  induction xs generalizing ys with
  | nil => cases gate
  | cons i xs ih =>
    obtain ⟨rest, rfl⟩ := below
    simp only [gatePath, List.cons_append, Bool.or_eq_true, Bool.and_eq_true] at gate ⊢
    exact gate.imp_right fun ⟨active, deeper⟩ => ⟨active, ih ⟨rest, rfl⟩ deeper⟩

section

variable (traced : Traced m m' (pageNumber (window x xs)) g) (slot : x = recurseActive ∨ x = recurseOther)
include traced slot

theorem Traced.exact (calm : Calm x t path m) (inside : xs <+: path) (short : xs.length ≤ 3)
    (place : follow branches m.core.mem 3 t xs = some g) : Exact t m m' := by
  obtain ⟨new, log, uses⟩ := traced.log
  refine ⟨new, log, fun a member gate => ?_⟩
  obtain ⟨page, frame, mem, retained⟩ := uses a member gate
  rw [mem, frame]
  refine ⟨⟨xs, place⟩, fun h kept => ?_⟩
  rcases retained h kept with rfl | old
  · rfl
  rcases slot with rfl | rfl
  · -- the active space is not seen through the gate
    rw [page, throughGate, indices_windowOf short, gatePath_active] at gate
    have shown : gatePath xs = true := gatePath_active 1 xs ▸ gate
    exact absurd (calm.active rfl) (by rw [gatePath_start inside shown]; decide)
  · exact calm.other rfl xs g h inside place old

theorem Traced.orderly (kept : ∀ ys f, ys <+: path → follow branches m'.core.mem 3 t ys = some f →
      follow branches m.core.mem 3 t ys = some f) (inside : xs <+: path) (short : path.length ≤ 3)
    (place : follow branches m.core.mem 3 t xs = some g) : Orderly x t path m m' := by
  intro calm
  have low : ∀ {ys}, ys <+: path → ys.length ≤ 3 := fun within => within.length_le.trans short
  refine ⟨traced.exact slot calm inside (low inside) place, ?_, calm.active⟩
  rintro rfl ys g' h within reached member
  have before := kept ys g' within reached
  rcases traced.tlb _ h (throughGate_window (low within)) member with old | ⟨page, rfl⟩
  · exact calm.other rfl ys g' h within before old
  · cases window_injective (low within) (low inside) page
    rw [place] at before
    exact Option.some.inj before

theorem Traced.orderly_flush (flushed : m'.tlb = []) (inside : xs <+: path) (short : path.length ≤ 3)
    (place : follow branches m.core.mem 3 t xs = some g) : Orderly x t path m m' := by
  intro calm
  refine ⟨traced.exact slot calm inside (inside.length_le.trans short) place, ?_, calm.active⟩
  intro _ ys g' h within reached member
  rw [flushed] at member
  cases member

end

theorem Silent.orderly (silent : Silent m m')
    (kept : ∀ ys f, ys <+: path → follow branches m'.core.mem 3 t ys = some f →
      follow branches m.core.mem 3 t ys = some f) (short : path.length ≤ 3) :
    Orderly x t path m m' := by
  intro calm
  refine ⟨silent.exact, fun same ys g h within reached member => ?_, calm.active⟩
  exact calm.other same ys g h within (kept ys g within reached)
    (silent.tlb _ h (throughGate_window (within.length_le.trans short)) member)

end Orderly

section Nested

variable {m : Machine} {x : Index} {t g mirror : Frame} {xs path : List Index} {i : Index}

theorem ensure_simulates (gate : Gate m.core x t) (backed : Backed m.core mirror)
    (place : follow branches m.core.mem 3 t xs = some g) (inside : xs <+: path) (short : path.length ≤ 3)
    (prop : PageProperties) :
    Simulates Machine.core m (vmmGetOrCreateEntry (window x xs) (i.setWidth 64) prop) (ensure prop g i)
      fun _ _ m' => Orderly x t path m m' := by
  refine (vmmGetOrCreateEntry_simulates (reaches_window gate place) backed prop).mono ?_
  rintro _ f m' taken ⟨traced, flushed⟩
  rcases ensure_cases taken with ⟨-, -, core⟩ | ⟨absent, -⟩
  · exact traced.orderly gate.slot (fun ys f _ reached => by rw [core] at reached; exact reached) inside short place
  · exact traced.orderly_flush gate.slot (flushed absent) inside short place

def superProperties (prop : PageProperties) : PageProperties := ⟨true, prop.user, prop.cacheDisable⟩

/-- The tables above the last on the way to an address. -/
def directories (v : W64) : List Index := [getPl4Index v, getDptIndex v, getDirIndex v]

theorem way_top {mem : Mem} {v : W64} (outside : getPl4Index v ≠ recurseActive)
    (way : plain mem t (directories v) = true) : Way mem t [] t (directories v) := by
  refine ⟨rfl, Nat.le_refl 3, fun i rest split => ?_, way⟩
  rw [← (List.cons.inj split).1]
  exact outside

theorem isRecursive_window : isRecursive (window x []) = true := by
  simp only [window, isRecursive, getPagingPath_tableAddress, BEq.rfl, Bool.true_or]

theorem vmmGetMostNestedTable_simulates {v : W64} (gate : Gate m.core x t) (backed : Backed m.core mirror)
    (space : Space m.core t) (outside : getPl4Index v ≠ recurseActive)
    (way : plain m.core.mem t (directories v) = true) (prop : PageProperties) :
    Simulates Machine.core m (vmmGetMostNestedTable (window x []) v prop)
      (descend (superProperties prop) t (directories v))
      fun table _ m' => table = window x (directories v) ∧ Orderly x t (directories v) m m' := by
  have short : (directories v).length ≤ 3 := Nat.le_refl 3
  unfold vmmGetMostNestedTable
  simp only [isRecursive_window, ↓reduceIte, getRecursiveAddress_zero]
  rw [window, getPagingPath_tableAddress]
  have root : follow branches m.core.mem 3 t [] = some t := rfl
  -- each level is reached through the one above, which the levels created so far have kept
  refine (ensure_simulates gate backed root List.nil_prefix short (superProperties prop)).bind ?_
  intro _ t1 m1 first orderly1
  obtain ⟨grows1, -, way1⟩ := (way_top outside way).ensure space first
  have gate1 := gate.grows backed.unused grows1
  have backed1 := backed.grows grows1
  have space1 := grows1.space space space
  refine (ensure_simulates gate1 backed1 way1.place ⟨[getDptIndex v, getDirIndex v], rfl⟩ short
    (superProperties prop)).bind ?_
  intro _ t2 m2 second orderly2
  obtain ⟨grows2, -, way2⟩ := way1.ensure space1 second
  have gate2 := gate1.grows backed1.unused grows2
  have space2 := grows2.space space1 space1
  refine (ensure_simulates gate2 (backed1.grows grows2) way2.place ⟨[getDirIndex v], rfl⟩ short
    (superProperties prop)).bind ?_
  intro _ t3 m3 third orderly3
  exact .of_yields (.pure ⟨rfl, rfl, (orderly1.trans orderly2).trans orderly3⟩)

end Nested

end Neutrino.Virtual
