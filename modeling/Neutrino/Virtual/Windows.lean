import Neutrino.Virtual.Spaces

namespace Neutrino.Virtual

open Library

section Addresses

variable {base : W64} {w x y z : Index}

theorem entryAddress_twice (base : W64) (a b : Nat) :
    entryAddress (entryAddress base (BitVec.ofNat 64 a)) (BitVec.ofNat 64 b) =
      entryAddress base (BitVec.ofNat 64 (a + b)) := by
  simp only [entryAddress, BitVec.ofNat_add, BitVec.mul_add, BitVec.add_assoc]

theorem entryAddress_inside {n : Nat} (small : n < 512) :
    entryAddress base (BitVec.ofNat 64 n) = entryAddress base ((BitVec.ofNat 9 n).setWidth 64) := by
  rw [ofNat_index small]

theorem entryAddress_next {n : Nat} (low : 512 ≤ n) (high : n < 1024) :
    entryAddress base (BitVec.ofNat 64 n) =
      entryAddress (base + 4096#64) ((BitVec.ofNat 9 (n - 512)).setWidth 64) := by
  rw [← ofNat_index (by omega)]
  apply BitVec.eq_of_toNat_eq
  simp only [entryAddress, BitVec.toNat_add, BitVec.toNat_mul, BitVec.toNat_ofNat]
  omega

theorem tableAddress_next (more : z.toNat < 511) :
    tableAddress w x y z + 4096#64 = tableAddress w x y (z + 1#9) := by
  apply BitVec.eq_of_toNat_eq
  have bound := w.isLt
  simp only [BitVec.toNat_add, tableAddress_toNat, BitVec.toNat_ofNat]
  omega

theorem tableAddress_carry (more : y.toNat < 511) :
    tableAddress w x y 511#9 + 4096#64 = tableAddress w x (y + 1#9) 0#9 := by
  apply BitVec.eq_of_toNat_eq
  have bound := w.isLt
  simp only [BitVec.toNat_add, tableAddress_toNat, BitVec.toNat_ofNat]
  omega

theorem path_toNat (a b d e : Index) : (((a.setWidth 64 <<< 39) ||| (b.setWidth 64 <<< 30) |||
    (d.setWidth 64 <<< 21) ||| (e.setWidth 64 <<< 12)) : W64).toNat =
    ((a.toNat * 2 ^ 9 + b.toNat) * 2 ^ 9 + d.toNat) * 2 ^ 21 + e.toNat * 2 ^ 12 := by
  have bounda := a.isLt
  have boundb := b.isLt
  have boundd := d.isLt
  have bounde := e.isLt
  have join : ∀ high low k : Nat, high * 2 ^ (k + 9) + low * 2 ^ k = (high * 2 ^ 9 + low) * 2 ^ k := by
    intro high low k
    rw [Nat.add_mul, Nat.mul_assoc, ← Nat.pow_add, Nat.add_comm 9 k]
  simp only [BitVec.toNat_or, shifted_toNat, Nat.reduceLeDiff]
  rw [or_eq_add _ _ 39 (by omega), join _ _ 30, or_eq_add _ _ 30 (by omega), join _ _ 21,
    or_eq_add _ _ 21 (by omega)]

theorem getAddress_toNat (path : PagingPath) : (getAddress path 0#64).toNat =
    (if path.pl4.toNat < 256 then 0 else 2 ^ 64 - 2 ^ 48) +
      (((path.pl4.toNat * 2 ^ 9 + path.dpt.toNat) * 2 ^ 9 + path.pd.toNat) * 2 ^ 21 + path.pt.toNat * 2 ^ 12) := by
  obtain ⟨a, b, d, e⟩ := path
  have bounda := a.isLt
  have boundb := b.isLt
  have boundd := d.isLt
  have bounde := e.isLt
  simp only [getAddress, BitVec.add_zero, signExtend]
  generalize sum : ((a.setWidth 64 <<< 39) ||| (b.setWidth 64 <<< 30) |||
    (d.setWidth 64 <<< 21) ||| (e.setWidth 64 <<< 12) : W64) = v
  have value := path_toNat a b d e
  rw [sum] at value
  have bit : v &&& (1#64 <<< 47) ≠ 0#64 ↔ 256 ≤ a.toNat := by
    have mask : 1#64 <<< 47 = BitVec.twoPow 64 47 := by decide
    have digit : v.getLsbD 47 = decide (256 ≤ a.toNat) := by
      rw [BitVec.getLsbD, Nat.testBit_eq_decide_div_mod_eq, value]
      apply Bool.decide_congr
      omega
    rw [mask, BitVec.and_twoPow, digit]
    have power : BitVec.twoPow 64 47 ≠ 0#64 := by decide
    by_cases upper : 256 ≤ a.toNat
    · simp [upper, power]
    · simp [upper]
  by_cases upper : 256 ≤ a.toNat
  · rw [if_pos (bit.mpr upper), if_neg (by omega)]
    have ones : ~~~((1#64 <<< 47) - 1#64) = 0xffff800000000000#64 := by decide
    have top : (0xffff800000000000#64).toNat = 131071 * 2 ^ 47 := by decide
    have range : 2 ^ 47 ≤ v.toNat ∧ v.toNat < 2 ^ 47 + 2 ^ 47 := by
      rw [value]
      clear bit sum ones top value
      omega
    obtain ⟨low, sum⟩ := Nat.exists_eq_add_of_le range.1
    have small : low < 2 ^ 47 := by
      rw [sum] at range
      exact Nat.lt_of_add_lt_add_left range.2
    have absorb : 131071 * 2 ^ 47 ||| 1 * 2 ^ 47 = 131071 * 2 ^ 47 := rfl
    rw [← Nat.one_mul (2 ^ 47)] at sum
    rw [ones, BitVec.toNat_or, Nat.or_comm, top, sum, ← or_eq_add _ _ 47 small, ← Nat.or_assoc, absorb,
      or_eq_add _ _ 47 small]
    omega
  · rw [if_neg (mt bit.mp upper), if_pos (by omega), BitVec.or_zero, value, Nat.zero_add]

theorem getPagingPath_getAddress (path : PagingPath) : getPagingPath (getAddress path 0#64) = path := by
  have value := getAddress_toNat path
  obtain ⟨a, b, d, e⟩ := path
  have bounda := a.isLt
  have boundb := b.isLt
  have boundd := d.isLt
  have bounde := e.isLt
  simp only [getPagingPath, getPl4Index_eq, getDptIndex_eq, getDirIndex_eq, getTabIndex_eq, PagingPath.mk.injEq]
  simp only at value
  refine ⟨?_, ?_, ?_, ?_⟩ <;>
  · apply BitVec.eq_of_toNat_eq
    rw [BitVec.extractLsb'_toNat, Nat.shiftRight_eq_div_pow, value]
    split <;> omega

end Addresses

section Places

variable {c : Core} {roots ram : Set Frame} {mirror g : Frame} {xs ys : List Index}

theorem lookup_self {mem : Mem} {root : Frame} (self : Links mem root recurseActive root)
    (low : 1 ≤ ys.length) (high : ys.length ≤ 3) : lookup hardware mem root (recurseActive :: ys) =
      (lookup hardware mem root ys).map fun (entries, left) => (mem root recurseActive :: entries, left) := by
  simp only [lookup, hardware_links self low high]

theorem lookup_selves {mem : Mem} {root : Frame} (self : Links mem root recurseActive root)
    (ys : List Index) (low : 1 ≤ ys.length) (n : Nat) (high : n + ys.length ≤ 4) :
    ∃ above, lookup hardware mem root (List.replicate n recurseActive ++ ys) =
      (lookup hardware mem root ys).map fun (entries, left) => (above ++ entries, left) := by
  induction n with
  | zero => exact ⟨[], by simp⟩
  | succ n ih =>
    obtain ⟨above, found⟩ := ih (by omega)
    refine ⟨mem root recurseActive :: above, ?_⟩
    rw [List.replicate_succ, List.cons_append, lookup_self self (by simp; omega) (by simp; omega), found]
    cases lookup hardware mem root ys <;> rfl

theorem lookup_entries {mem : Mem} {entries : List W64} {left : List Index}
    (found : lookup hardware mem g ys = some (entries, left)) : ∃ above e, entries = above ++ [e] := by
  suffices more : entries ≠ [] from ⟨_, _, (List.dropLast_concat_getLast more).symm⟩
  rintro rfl
  cases ys with
  | nil => cases found
  | cons y ys =>
    simp only [lookup] at found
    split at found
    · cases found
    · cases found
    · obtain ⟨_, _, same⟩ := Option.map_eq_some_iff.mp found
      cases same

theorem lookup_place {entries : List W64} {left : List Index} (tidy : Tidy c)
    (place : follow branches c.mem 3 c.cr3 xs = some g) (more : ys ≠ []) (short : xs.length + ys.length ≤ 3)
    (head : ∀ i rest, xs ++ ys = i :: rest → i ≠ recurseActive ∧ i ≠ permSlot)
    (found : lookup hardware c.mem g ys = some (entries, left)) :
    left = [] ∧ follow branches c.mem 3 c.cr3 (xs ++ ys) = some (frameOf (entries.getLastD 0#64)) := by
  induction ys generalizing xs g entries with
  | nil => exact absurd rfl more
  | cons y ys ih =>
    rw [List.length_cons] at short
    have present : isPresent (c.mem g y) = true := by
      by_contra absent
      simp [lookup, hardware_absent (by simpa using absent : isPresent (c.mem g y) = false)] at found
    obtain ⟨links, next⟩ := tidy.next place (by omega) head present
    cases ys with
    | nil =>
      simp only [lookup, hardware, List.length_nil, present, ↓reduceIte, Option.some.injEq, Prod.mk.injEq] at found
      obtain ⟨rfl, rfl⟩ := found
      exact ⟨rfl, next⟩
    | cons y' ys =>
      rw [lookup, hardware_links links (by simp : 1 ≤ (y' :: ys).length) (by omega)] at found
      obtain ⟨⟨entries', left'⟩, deeper, same⟩ := Option.map_eq_some_iff.mp found
      cases same
      have split : xs ++ y :: y' :: ys = (xs ++ [y]) ++ y' :: ys := by simp
      rw [split] at head ⊢
      have count : (xs ++ [y]).length + (y' :: ys).length ≤ 3 := by
        rw [List.length_append, List.length_singleton]
        omega
      obtain ⟨done, reached⟩ := ih next (by simp) count head deeper
      refine ⟨done, reached.trans ?_⟩
      obtain ⟨before, e, rfl⟩ := lookup_entries deeper
      rw [← List.cons_append, List.getLastD_concat, List.getLastD_concat]

theorem Family.window_place {found : Translation} (family : Family c roots ram mirror) (tidy : Tidy c)
    (short : xs.length ≤ 3) (head : ∀ i rest, xs = i :: rest → i ≠ recurseActive ∧ i ≠ permSlot)
    (shown : walk c.mem c.cr3 (pageNumber (window recurseActive xs)) = some found) :
    follow branches c.mem 3 c.cr3 xs = some found.frame := by
  have self := family.selves c.cr3 family.active
  unfold walk at shown
  split at shown
  case isFalse => cases shown
  obtain ⟨⟨entries, left⟩, reached, rfl⟩ := Option.map_eq_some_iff.mp shown
  rw [indices_windowOf short] at reached
  cases xs with
  | nil =>
    obtain ⟨above, same⟩ := lookup_selves self [recurseActive] (by simp) 3 (by simp)
    have last : lookup hardware c.mem c.cr3 [recurseActive] = some ([c.mem c.cr3 recurseActive], []) := by
      simp [lookup, hardware, self.present]
    rw [last] at same
    have whole := same.symm.trans reached
    cases whole
    simp [pageFrame, self.frame, follow]
  | cons i xs =>
    have split : List.replicate (3 - (i :: xs).length) recurseActive ++ recurseActive :: i :: xs =
        List.replicate (4 - (i :: xs).length) recurseActive ++ i :: xs := by
      have count : 4 - (i :: xs).length = (3 - (i :: xs).length) + 1 := by omega
      rw [count, List.replicate_succ', List.append_assoc]
      rfl
    obtain ⟨above, same⟩ := lookup_selves self (i :: xs) (by simp) (4 - (i :: xs).length) (by omega)
    rw [split, same] at reached
    obtain ⟨⟨entries', left'⟩, below, same⟩ := Option.map_eq_some_iff.mp reached
    cases same
    have top : follow branches c.mem 3 c.cr3 [] = some c.cr3 := rfl
    obtain ⟨rfl, place⟩ := lookup_place tidy top (List.cons_ne_nil i xs) (by simpa using short) head below
    rw [List.nil_append] at place
    obtain ⟨before, e, rfl⟩ := lookup_entries below
    rw [place]
    simp [pageFrame]

end Places

theorem window_aligned_page (x : Index) (xs : List Index) : (window x xs).toNat % 4096 = 0 := by
  match xs with
  | [] | [_] | [_, _] | _ :: _ :: _ :: _ => exact tableAddress_aligned _ _ _ _

section Uses

variable {m : Machine} {roots ram : Set Frame} {mirror g : Frame} {xs : List Index} {i : Index}
  {table entry : W64}

theorem load_ensures (addr : W64) : Ensures m (load addr) fun e m' => m'.core = m.core ∧
    ∃ found, walk m.core.mem m.core.cr3 (pageNumber addr) = some found ∧
      e = m.core.mem found.frame (wordIndex addr) := by
  intro e m' taken
  obtain ⟨f, m1, used, rest⟩ := bind_some taken
  obtain ⟨_, answered, same⟩ := Option.map_eq_some_iff.mp used
  obtain ⟨found, shown, rfl⟩ := Option.map_eq_some_iff.mp answered
  cases same
  cases rest
  exact ⟨rfl, found, shown, rfl⟩

theorem vmmGetEntry_ensures (table entry : W64) : Ensures m (vmmGetEntry table entry) fun a m' =>
    m'.core = m.core ∧ ∃ found,
      walk m.core.mem m.core.cr3 (pageNumber (entryAddress table entry)) = some found ∧
      (a ≠ 0#64 ↔ isEntry (m.core.mem found.frame (wordIndex (entryAddress table entry))) = true) := by
  unfold vmmGetEntry
  refine .bind (load_ensures _) ?_
  rintro e m1 ⟨core, found, shown, rfl⟩
  split
  · rename_i present
    refine .bind (load_ensures _) ?_
    rintro e m2 ⟨core', found', shown', rfl⟩
    rw [core] at core' shown' ⊢
    cases shown.symm.trans shown'
    refine .pure ⟨core', found, shown, ?_⟩
    simp [isEntry, present]
  · rename_i absent
    refine .pure ⟨core, found, shown, ?_⟩
    simp [isEntry, absent]

theorem vmmGetEntry_congr {table' entry' : W64} (same : entryAddress table entry = entryAddress table' entry') :
    vmmGetEntry table entry = vmmGetEntry table' entry' := by
  simp only [vmmGetEntry, same]

theorem vmmCreateEntry_congr {table' entry' : W64} (same : entryAddress table entry = entryAddress table' entry')
    (prop : PageProperties) : vmmCreateEntry table entry prop = vmmCreateEntry table' entry' prop := by
  simp only [vmmCreateEntry, same]

theorem vmmGetOrCreateEntry_congr {table' entry' : W64}
    (same : entryAddress table entry = entryAddress table' entry') (prop : PageProperties) :
    vmmGetOrCreateEntry table entry prop = vmmGetOrCreateEntry table' entry' prop := by
  simp only [vmmGetOrCreateEntry, vmmCreateEntry, same]

variable (family : Family m.core roots ram mirror)
include family

theorem Family.gate_active : Gate m.core recurseActive m.core.cr3 :=
  ⟨.inl rfl, family.selves _ family.active, family.selves _ family.active⟩

theorem Family.vmmGetEntry_place (tidy : Tidy m.core) (short : xs.length ≤ 3)
    (head : ∀ i rest, xs = i :: rest → i ≠ recurseActive ∧ i ≠ permSlot) (i : Index) :
    Ensures m (vmmGetEntry (window recurseActive xs) (i.setWidth 64)) fun a m' => m'.core = m.core ∧
      ∃ g, follow branches m.core.mem 3 m.core.cr3 xs = some g ∧
        (a ≠ 0#64 ↔ isEntry (m.core.mem g i) = true) := by
  have aligned := window_aligned_page recurseActive xs
  refine (vmmGetEntry_ensures _ _).mono ?_
  rintro a m' ⟨core, found, shown, entry⟩
  rw [pageNumber_entryAddress aligned] at shown
  rw [wordIndex_entryAddress aligned] at entry
  exact ⟨core, found.frame, family.window_place tidy short head shown, entry⟩

theorem Family.vmmCreateEntry_place (place : follow branches m.core.mem 3 m.core.cr3 xs = some g)
    (high : xs.length ≤ 2) (absent : isPresent (m.core.mem g i) = false) (prop : PageProperties) :
    Ensures m (vmmCreateEntry (window recurseActive xs) (i.setWidth 64) prop) fun _ m' =>
      Edits m.core.cr3 m.core m'.core := by
  intro a m' taken
  have reaches := reaches_window family.gate_active place
  obtain ⟨f, created, -⟩ := (vmmCreateEntry_simulates reaches family.backed absent prop).source taken
  unfold create at created
  split at created
  · cases created
  · rename_i h rest supply
    rw [← (Prod.mk.inj (Option.some.inj created)).2]
    exact .single (.link (.intro prop place high absent supply))

variable (tidy : Tidy m.core) (high : xs.length ≤ 2)
  (head : ∀ i rest, xs = i :: rest → i ≠ recurseActive ∧ i ≠ permSlot)
include tidy high head

theorem Family.ensureEntry_place (prop : PageProperties)
    (same : entryAddress table entry = entryAddress (window recurseActive xs) (i.setWidth 64)) :
    Ensures m (do if (← vmmGetEntry table entry) = 0#64 then Functor.discard (vmmCreateEntry table entry prop))
      fun _ m' => Edits m.core.cr3 m.core m'.core := by
  rw [vmmGetEntry_congr same, vmmCreateEntry_congr same]
  refine .bind (family.vmmGetEntry_place tidy (by omega) head i) ?_
  rintro a m1 ⟨core, g, place, entry⟩
  split
  · rename_i zero
    have absent : isPresent (m.core.mem g i) = false := by
      by_contra present
      have slot : xs.head? ≠ some permSlot := by
        intro first
        cases xs with
        | nil => cases first
        | cons a xs =>
          cases first
          exact (head permSlot xs rfl).2 rfl
      have found := (tidy xs g i place high slot (by simpa using present)).2
      exact entry.mpr found zero
    rw [← core] at family place absent ⊢
    exact .discard (family.vmmCreateEntry_place place high absent prop)
  · refine .pure ?_
    rw [core]

theorem Family.vmmGetOrCreateEntry_place (prop : PageProperties)
    (same : entryAddress table entry = entryAddress (window recurseActive xs) (i.setWidth 64)) :
    Ensures m (vmmGetOrCreateEntry table entry prop) fun _ m' => Edits m.core.cr3 m.core m'.core := by
  have aligned := window_aligned_page recurseActive xs
  rw [vmmGetOrCreateEntry_congr same]
  unfold vmmGetOrCreateEntry
  refine .bind (load_ensures _) ?_
  rintro e m1 ⟨core, found, shown, rfl⟩
  rw [pageNumber_entryAddress aligned] at shown
  have place := family.window_place tidy (by omega) head shown
  split
  · refine .bind (load_ensures _) ?_
    rintro e m2 ⟨core', -⟩
    refine .pure ?_
    rw [core', core]
  · rename_i absent
    rw [wordIndex_entryAddress aligned] at absent
    rw [← core] at family place absent ⊢
    exact family.vmmCreateEntry_place place high (by simpa using absent) prop

end Uses

end Neutrino.Virtual
