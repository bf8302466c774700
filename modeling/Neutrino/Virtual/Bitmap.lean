import Neutrino.Physical.Addresses
import Neutrino.Virtual.Creation

namespace Neutrino.Virtual

open Library Physical

/-- The frames in `used` are those whose bits are set. -/
def Marks (p : Pmm) (used : Set Frame) : Prop := ∀ f : Frame, f ∈ used ↔ p.used f.toNat = true

/-- The `i`-th block that is given back at `addr` has the bit of the frame `f`: both `pmm_free` and
    `pmm_free_series` keep only 32 bits of the address. -/
def Unmarks (addr : W64) (i : Nat) (f : Frame) : Prop :=
  bitPlace (toInt32 (addr.setWidth 32 / 0x1000#32 + BitVec.ofNat 32 i).toNat) = bitPlace f.toNat

/-- The frames that `pmm_alloc` hands out one after the other. -/
def HandsOut (p : Pmm) (frames : List Frame) (p' : Pmm) : Prop :=
  Run (fun p f p' => Physical.pmmAlloc p = some (frameAddress f, p')) p frames p'

section Places

variable {p p' : Pmm} {used : Set Frame} {addr : W64} {f : Frame} {b i : Nat}

theorem bitPlace_natCast (b : Nat) : bitPlace b = (((b / 32 : Nat) : Int), b % 32) := by
  rw [bitPlace, wordIndex_natCast, bitPosition_natCast]

theorem bitPlace_injective {c : Nat} (same : bitPlace b = bitPlace c) : b = c := by
  rw [bitPlace_natCast, bitPlace_natCast] at same
  obtain ⟨word, position⟩ := Prod.mk.inj same
  omega

theorem narrowed_toNat (addr : W64) : (addr.setWidth 32 / 0x1000#32).toNat = (frameOf addr).toNat % 2 ^ 20 := by
  rw [BitVec.toNat_udiv, frameOf_toNat, BitVec.toNat_setWidth, BitVec.toNat_ofNat]
  simp only [Nat.reducePow, Nat.reduceMod]
  omega

/-- Below 4 GiB nothing of the address is lost. -/
theorem unmarks_low_iff (low : (frameOf addr).toNat + i < 2 ^ 20) :
    Unmarks addr i f ↔ f.toNat = (frameOf addr).toNat + i := by
  have block : (addr.setWidth 32 / 0x1000#32 + BitVec.ofNat 32 i).toNat = (frameOf addr).toNat + i := by
    rw [BitVec.toNat_add, narrowed_toNat, BitVec.toNat_ofNat]
    omega
  rw [Unmarks, block, toInt32_of_small _ (by omega)]
  exact ⟨fun same => (bitPlace_injective same).symm, fun same => by rw [same]⟩

theorem frameOf_pageAt (low : (frameOf addr).toNat + i < 2 ^ 20) :
    (frameOf (pageAt addr i)).toNat = (frameOf addr).toNat + i := by
  have bound := addr.isLt
  rw [frameOf_toNat] at low ⊢
  rw [frameOf_toNat, pageAt, BitVec.toNat_add, BitVec.toNat_ofNat, pageSize]
  omega

end Places

section Marks

variable {p p' : Pmm} {used : Set Frame} {addr : W64} {f : Frame} {frames : List Frame} {m m' : Machine}

theorem used_eq_bit (p : Pmm) (f : Frame) :
    p.used f.toNat = (p.words (bitPlace f.toNat).1).getLsbD (bitPlace f.toNat).2 := by
  rw [bitPlace_natCast]
  rfl

theorem marks_clearAll {places : List (Int × Nat)} (marks : Marks p used)
    (cleared : p'.words = p.words.clearAll places) : Marks p' {f | f ∈ used ∧ bitPlace f.toNat ∉ places} := by
  intro f
  rw [used_eq_bit, cleared, WordBitmap.getLsbD_clearAll _ _ _ _ (bitPlace_inside _), ← used_eq_bit, Set.mem_ofPred_eq,
    marks f]
  simp

theorem Marks.freed (marks : Marks p used) (addr : W64) :
    Marks (Physical.pmmFree p addr) {f | f ∈ used ∧ ¬ Unmarks addr 0 f} := by
  have cleared : (Physical.pmmFree p addr).words =
      p.words.clearAll [bitPlace (toInt32 (addr.setWidth 32 / 0x1000#32).toNat)] := rfl
  have later := marks_clearAll marks cleared
  simp only [List.mem_singleton] at later
  simp only [Unmarks, BitVec.add_zero, eq_comm]
  exact later

theorem Marks.freedAll (marks : Marks p used) (freed : List W64) :
    Marks (freed.foldl Physical.pmmFree p) {f | f ∈ used ∧ ∀ a ∈ freed, ¬ Unmarks a 0 f} := by
  induction freed generalizing p used with
  | nil => simpa using marks
  | cons a rest ih => simpa [and_assoc] using ih (marks.freed a)

theorem Marks.freedSeries (marks : Marks p used) (addr : W64) (size : W32) :
    Marks (Physical.pmmFreeSeries p addr size) {f | f ∈ used ∧ ∀ i < size.toNat, ¬ Unmarks addr i f} := by
  have later : Marks (Physical.pmmFreeSeries p addr size) _ := marks_clearAll marks (unsetSeries_words _ 0 _ p)
  simp only [mem_seriesPlaces, BitVec.ofNat_eq_ofNat, BitVec.add_zero, not_exists, not_and] at later
  simp only [Unmarks, eq_comm]
  exact later

/-- The calls of `pmm_free` in the log of `Virtual.pmmFreeSeries` come to the same as
    `pmm_free_series` on the bitmap. -/
theorem pmmFreeSeries_logged (size : W32) (low : (frameOf addr).toNat + size.toNat ≤ 2 ^ 20)
    (done : pmmFreeSeries addr size.toNat m = some ((), m')) :
    ∃ freed, m'.core.freed = m.core.freed ++ freed ∧ ∀ f : Frame,
      (freed.foldl Physical.pmmFree p).used f.toNat = (Physical.pmmFreeSeries p addr size).used f.toNat := by
  rw [pmmFreeSeries_eq] at done
  cases done
  refine ⟨_, rfl, fun f => ?_⟩
  have marks : Marks p {f | p.used f.toNat = true} := fun _ => Iff.rfl
  rw [Bool.eq_iff_iff, ← marks.freedAll _ f, ← marks.freedSeries addr size f]
  have same : ∀ i < size.toNat, (Unmarks (pageAt addr i) 0 f ↔ Unmarks addr i f) := by
    intro i inside
    have page : (frameOf (pageAt addr i)).toNat = (frameOf addr).toNat + i := frameOf_pageAt (by omega)
    rw [unmarks_low_iff (by omega), unmarks_low_iff (by omega), page]
    rfl
  simp only [List.mem_map, List.mem_range, forall_exists_index, and_imp, forall_apply_eq_imp_iff₂, Set.mem_ofPred_eq]
  exact and_congr_right fun _ => forall₂_congr fun i inside => not_congr (same i inside)

theorem pmmAlloc_marks (small : p.totalBlocks.toNat ≤ 2 ^ 20)
    (done : Physical.pmmAlloc p = some (frameAddress f, p')) : f.toNat < 2 ^ 20 ∧ p.used f.toNat = false ∧
      p'.totalBlocks = p.totalBlocks ∧ ∀ c, p'.used c = (p.used c || decide (c = f.toNat)) := by
  obtain ⟨b, first, address, rfl⟩ := pmmAlloc_cases done
  have inside : b < 2 ^ 20 := by
    have scanned := first.2.1
    rw [Pmm.scanned] at scanned
    omega
  have block : f.toNat = b := by
    have number := congrArg BitVec.toNat address
    rw [frameAddress_toNat, block_address b inside] at number
    omega
  have index : toInt32 (BitVec.ofNat 32 b).toNat = b := by
    rw [BitVec.toNat_ofNat, Nat.mod_eq_of_lt (by omega), toInt32_of_small b (by omega)]
  have clear := first.2.2.1
  refine ⟨by omega, ?_, rfl, fun c => ?_⟩
  · rw [block]
    simpa [clearBlock] using clear
  · rw [index, used_pmmUpdateBlocks, used_pmmMapSet, block]

theorem HandsOut.marks (small : p.totalBlocks.toNat ≤ 2 ^ 20) (hands : HandsOut p frames p') (marks : Marks p used) :
    frames.Nodup ∧ (∀ f ∈ frames, f ∉ used ∧ f.toNat < 2 ^ 20) ∧ Marks p' {f | f ∈ used ∨ f ∈ frames} := by
  induction hands generalizing used with
  | nil => simpa using marks
  | @cons p p1 p' f frames taken rest ih =>
    obtain ⟨low, clear, total, bits⟩ := pmmAlloc_marks small taken
    have next : Marks p1 (insert f used) := by
      intro g
      rw [bits, Set.mem_insert_iff, marks g, ← BitVec.toNat_inj]
      simp [or_comm]
    obtain ⟨nodup, unused, last⟩ := ih (by rw [total]; exact small) next
    have unmarked : f ∉ used := by
      rw [marks f, clear]
      exact Bool.false_ne_true
    refine ⟨List.nodup_cons.mpr ⟨fun again => (unused f again).1 (Set.mem_insert f used), nodup⟩, ?_, ?_⟩
    · intro g member
      rcases List.mem_cons.mp member with rfl | later
      · exact ⟨unmarked, low⟩
      · exact ⟨fun old => (unused g later).1 (Set.mem_insert_of_mem f old), (unused g later).2⟩
    · intro g
      rw [← last g]
      simp only [Set.mem_ofPred_eq, Set.mem_insert_iff, List.mem_cons]
      tauto

/-- `Virtual.pmmAlloc` hands out what `pmm_alloc` finds in the bitmap. -/
theorem pmmAlloc_handsOut (hands : HandsOut p m.core.supply p') (done : pmmAlloc m = some (addr, m')) :
    ∃ p1, Physical.pmmAlloc p = some (addr, p1) ∧ HandsOut p1 m'.core.supply p' := by
  unfold pmmAlloc at done
  split at done
  · cases done
  · rename_i f rest supply
    cases done
    rw [supply] at hands
    cases hands with
    | cons taken later => exact ⟨_, taken, later⟩

end Marks

end Neutrino.Virtual
