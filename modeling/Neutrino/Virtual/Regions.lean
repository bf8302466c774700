import Neutrino.Virtual.Creation

namespace Neutrino.Virtual

open Library

-- The bytes of the words that pages are made of.

def byteOf (word : W64) (k : Nat) : BitVec 8 := word.extractLsb' (8 * k) 8

def setByte (word : W64) (k : Nat) (byte : BitVec 8) : W64 :=
  (word &&& ~~~((BitVec.allOnes 8).setWidth 64 <<< (8 * k))) ||| (byte.setWidth 64 <<< (8 * k))

theorem getLsbD_setByte (word : W64) (k : Nat) (byte : BitVec 8) {n : Nat} (inside : n < 64) :
    (setByte word k byte).getLsbD n =
      if 8 * k ≤ n ∧ n < 8 * k + 8 then byte.getLsbD (n - 8 * k) else word.getLsbD n := by
  simp only [setByte, BitVec.getLsbD_or, BitVec.getLsbD_and, BitVec.getLsbD_not, BitVec.getLsbD_shiftLeft,
    BitVec.getLsbD_setWidth, BitVec.getLsbD_allOnes, inside, decide_true, Bool.true_and]
  by_cases before : n < 8 * k
  · simp [before, show ¬ (8 * k ≤ n ∧ n < 8 * k + 8) by omega]
  · by_cases behind : n < 8 * k + 8
    · simp [before, behind, show n - 8 * k < 64 by omega, show n - 8 * k < 8 by omega, show 8 * k ≤ n by omega]
    · simp [before, behind, show ¬ n - 8 * k < 8 by omega, BitVec.getLsbD_of_ge byte (n - 8 * k) (by omega)]

theorem byteOf_setByte (word : W64) (byte : BitVec 8) {j k : Nat} (small : j < 8) :
    byteOf (setByte word k byte) j = if j = k then byte else byteOf word j := by
  apply BitVec.eq_of_getLsbD_eq
  intro i bound
  rw [byteOf, BitVec.getLsbD_extractLsb', getLsbD_setByte word k byte (by omega)]
  by_cases same : j = k
  · subst same
    simp [bound]
  · simp [same, bound, byteOf, show ¬ (8 * k ≤ 8 * j + i ∧ 8 * j + i < 8 * k + 8) by omega]

def Mem.byte (mem : Mem) (g : Frame) (x : Nat) : BitVec 8 := byteOf (mem g (BitVec.ofNat 9 (x / 8))) (x % 8)

/-- What a program in the space reads at an address. -/
def readByte (mem : Mem) (root : Frame) (addr : W64) : Option (BitVec 8) :=
  (walk mem root (pageNumber addr)).map fun found => mem.byte found.frame (addr.toNat % pageSize)

def storeByte (addr : W64) (byte : BitVec 8) : VmmM Unit := do
  let f ← access addr
  modify fun m => m.withCore (m.core.withMem (m.core.mem.write f (wordIndex addr)
    (setByte (m.core.mem f (wordIndex addr)) (addr.toNat % 8) byte)))

-- The bytes of frames in a row.

def runByte (mem : Mem) (f : Frame) (x : Nat) : BitVec 8 :=
  mem.byte (f + BitVec.ofNat 40 (x / pageSize)) (x % pageSize)

/-- Where the window at `MEM_OFFSET` shows a byte of the frames from `f` on. -/
def runAddress (f : Frame) (x : Nat) : W64 := getMemAddress (frameAddress f) + BitVec.ofNat 64 x

section Runs

variable {mem : Mem} {f : Frame} {n x y : Nat}

variable (fits : f.toNat + n ≤ 2 ^ 27)
include fits

theorem run_frame_toNat {i : Nat} (below : i < n) : (f + BitVec.ofNat 40 i).toNat = f.toNat + i := by
  rw [BitVec.toNat_add, BitVec.toNat_ofNat]
  omega

theorem pageAt_frameAddress {i : Nat} (below : i < n) :
    pageAt (frameAddress f) i = frameAddress (f + BitVec.ofNat 40 i) := by
  apply BitVec.eq_of_toNat_eq
  rw [pageAt, BitVec.toNat_add, frameAddress_toNat, frameAddress_toNat, run_frame_toNat fits below,
    BitVec.toNat_ofNat, pageSize]
  omega

theorem runAddress_toNat (below : x < n * pageSize) :
    (runAddress f x).toNat = f.toNat * 4096 + x + memvOffset.toNat := by
  have base := @window_toNat memvOffset f (by decide) (by decide) (by simp only [pageSize] at below; omega)
  have offset : memvOffset.toNat = 0xffff800000000000 := by decide
  simp only [pageSize] at below
  rw [runAddress, getMemAddress, BitVec.toNat_add, base, BitVec.toNat_ofNat]
  omega

theorem pageNumber_runAddress (below : x < n * pageSize) :
    pageNumber (runAddress f x) = pageNumber (getMemAddress (frameAddress (f + BitVec.ofNat 40 (x / pageSize)))) := by
  have offset : memvOffset.toNat = 0xffff800000000000 := by decide
  simp only [pageSize] at below ⊢
  have frame := run_frame_toNat fits (show x / 4096 < n by omega)
  have base := @window_toNat memvOffset (f + BitVec.ofNat 40 (x / 4096)) (by decide) (by decide) (by omega)
  apply BitVec.eq_of_toNat_eq
  rw [pageNumber_toNat, pageNumber_toNat, runAddress_toNat fits (by simpa [pageSize] using below), getMemAddress,
    base, frame]
  omega

theorem runByte_write (here : x < n * pageSize) (there : y < n * pageSize) (byte : BitVec 8) :
    runByte (mem.write (f + BitVec.ofNat 40 (x / pageSize)) (wordIndex (runAddress f x))
      (setByte (mem (f + BitVec.ofNat 40 (x / pageSize)) (wordIndex (runAddress f x)))
        ((runAddress f x).toNat % 8) byte)) f y = if y = x then byte else runByte mem f y := by
  have offset : memvOffset.toNat = 0xffff800000000000 := by decide
  have place := runAddress_toNat fits here
  simp only [pageSize] at here there
  have frames : f + BitVec.ofNat 40 (y / 4096) = f + BitVec.ofNat 40 (x / 4096) ↔ y / 4096 = x / 4096 := by
    rw [← BitVec.toNat_inj, run_frame_toNat fits (by omega), run_frame_toNat fits (by omega)]
    omega
  have index : (wordIndex (runAddress f x)).toNat = x % 4096 / 8 := by
    rw [wordIndex, BitVec.extractLsb'_toNat, place, Nat.shiftRight_eq_div_pow]
    omega
  have words : BitVec.ofNat 9 (y % 4096 / 8) = wordIndex (runAddress f x) ↔ y % 4096 / 8 = x % 4096 / 8 := by
    rw [← BitVec.toNat_inj, index, BitVec.toNat_ofNat]
    omega
  have part : (runAddress f x).toNat % 8 = x % 4096 % 8 := by omega
  simp only [runByte, Mem.byte, pageSize, write_apply, frames, words, part]
  by_cases same : y / 4096 = x / 4096 ∧ y % 4096 / 8 = x % 4096 / 8
  · have word : BitVec.ofNat 9 (y % 4096 / 8) = wordIndex (runAddress f x) := words.mpr same.2
    rw [if_pos same, byteOf_setByte _ _ (Nat.mod_lt _ (by decide)), ← word, same.1]
    by_cases equal : y = x
    · subst equal
      simp
    · rw [if_neg equal, if_neg (by omega)]
  · rw [if_neg same, if_neg]
    rintro rfl
    exact same ⟨rfl, rfl⟩

end Runs

section Data

variable {c : Core} {mem : Mem} {roots ram : Set Frame} {mirror r : Frame} {v : W64} {q : PageNumber}

variable (same : ∀ r ∈ roots, ∀ g, IsTable c.mem r g → mem g = c.mem g)
include same

theorem data_plain (member : r ∈ roots) (outside : getPl4Index v ≠ recurseActive)
    (way : plain c.mem r (directories v) = true) : plain mem r (directories v) = true :=
  (way_top outside way).rows (same r member)

theorem data_walk (member : r ∈ roots) (outside : slotOf q ≠ recurseActive) :
    walk mem r q = walk c.mem r q :=
  walk_congr outside fun _ => lookup_row (same r member) (indices_length q)

theorem Family.data (family : Family c roots ram mirror) : Family (c.withMem mem) roots ram mirror := by
  refine family.of_follow rfl rfl rfl ?_ ?_ ?_ ?_
  · intro r member
    exact congrFun (same r member r ⟨[], rfl⟩) recurseActive
  · exact congrFun (same c.cr3 family.active c.cr3 ⟨[], rfl⟩) permSlot
  · intro f _
    exact congrFun (same c.cr3 family.active mirror ⟨_, family.mirror_place⟩) _
  · intro r member xs f path
    exact (follow_row (same r member)).mp path

theorem Family.data_tidy (family : Family c roots ram mirror) (tidy : Tidy c) : Tidy (c.withMem mem) := by
  intro xs g i path high head present
  have old := (follow_row (same c.cr3 family.active)).mp path
  have row : mem g = c.mem g := same c.cr3 family.active g ⟨xs, old⟩
  replace present : isPresent (mem g i) = true := present
  show isHuge (mem g i) = false ∧ isEntry (mem g i) = true
  rw [row] at present ⊢
  exact tidy xs g i old high head present

end Data

section Stores

variable {m : Machine} {roots ram : Set Frame} {mirror f : Frame} {n : Nat}

/-- The window shows the frames from `f` on, which are no tables. -/
structure Shown (c : Core) (roots : Set Frame) (f : Frame) (n : Nat) : Prop where
  fits : f.toNat + n ≤ 2 ^ 27
  apart : ∀ i < n, ∀ r ∈ roots, ¬ IsTable c.mem r (f + BitVec.ofNat 40 i)
  walks : ∀ i < n, ∃ entries, walk c.mem c.cr3 (pageNumber (getMemAddress (frameAddress (f + BitVec.ofNat 40 i)))) =
    some ⟨entries, f + BitVec.ofNat 40 i⟩

/-- Only the frames from `f` on have been written to. -/
def Written (f : Frame) (n : Nat) (c c' : Core) : Prop :=
  ∃ mem, c' = c.withMem mem ∧ ∀ g, (∀ i < n, g ≠ f + BitVec.ofNat 40 i) → mem g = c.mem g

theorem Written.refl (f : Frame) (n : Nat) (c : Core) : Written f n c c := ⟨c.mem, rfl, fun _ _ => rfl⟩

theorem Written.trans {c c' c'' : Core} (first : Written f n c c') (second : Written f n c' c'') :
    Written f n c c'' := by
  rcases first with ⟨mem, rfl, same⟩
  rcases second with ⟨mem', rfl, same'⟩
  exact ⟨mem', rfl, fun g other => (same' g other).trans (same g other)⟩

theorem Shown.tables {c c' : Core} (shown : Shown c roots f n) (written : Written f n c c') :
    ∃ mem, c' = c.withMem mem ∧ ∀ r ∈ roots, ∀ g, IsTable c.mem r g → mem g = c.mem g := by
  rcases written with ⟨mem, rfl, same⟩
  refine ⟨mem, rfl, fun r member g table => same g ?_⟩
  rintro i below rfl
  exact shown.apart i below r member table

theorem Shown.written {c c' : Core} (shown : Shown c roots f n) (active : c.cr3 ∈ roots)
    (written : Written f n c c') : Shown c' roots f n := by
  rcases shown.tables written with ⟨mem, rfl, same⟩
  refine ⟨shown.fits, fun i below r member table => ?_, fun i below => ?_⟩
  · rcases table with ⟨xs, path⟩
    exact shown.apart i below r member ⟨xs, (follow_row (same r member)).mp path⟩
  · have small := run_frame_toNat shown.fits below
    have outside : slotOf (pageNumber (getMemAddress (frameAddress (f + BitVec.ofNat 40 i)))) ≠ recurseActive := by
      rw [slotOf_pageNumber, memAddress_slot (by have := shown.fits; omega)]
      decide
    rcases shown.walks i below with ⟨entries, found⟩
    exact ⟨entries, (data_walk same active outside).trans found⟩

theorem storeByte_yields (shown : Shown m.core roots f n) {x : Nat} (inside : x < n * pageSize) (byte : BitVec 8) :
    Yields m (storeByte (runAddress f x) byte) fun _ m' => Written f n m.core m'.core ∧
      ∀ y < n * pageSize, runByte m'.core.mem f y = if y = x then byte else runByte m.core.mem f y := by
  have below : x / pageSize < n := by
    simp only [pageSize] at inside ⊢
    omega
  rcases shown.walks _ below with ⟨entries, found⟩
  rw [← pageNumber_runAddress shown.fits inside] at found
  have used : access (runAddress f x) m = some (f + BitVec.ofNat 40 (x / pageSize),
      m.used (pageNumber (runAddress f x)) (f + BitVec.ofNat 40 (x / pageSize))) := by
    simp only [access, Processor.answer, Machine.walked, found, Option.map_some]
  refine .after used ⟨(), _, rfl, ⟨_, rfl, fun g other => ?_⟩, fun y there => ?_⟩
  · exact Function.update_of_ne (other _ below) _ _
  · exact runByte_write shown.fits inside there byte

theorem storeRun_yields (active : m.core.cr3 ∈ roots) (shown : Shown m.core roots f n) (first count : Nat)
    (value : Nat → BitVec 8) (inside : first + count ≤ n * pageSize) :
    Yields m ((List.range count).forM fun i => storeByte (runAddress f (first + i)) (value i)) fun _ m' =>
      Written f n m.core m'.core ∧ ∀ x < n * pageSize, runByte m'.core.mem f x =
        if first ≤ x ∧ x < first + count then value (x - first) else runByte m.core.mem f x := by
  refine Yields.forM_range (fun i (m' : Machine) => Written f n m.core m'.core ∧ ∀ x < n * pageSize,
    runByte m'.core.mem f x =
      if first ≤ x ∧ x < first + i then value (x - first) else runByte m.core.mem f x) ?_ ?_
  · refine ⟨.refl f n m.core, fun x _ => ?_⟩
    rw [if_neg (by omega)]
  rintro i below m1 ⟨written, bytes⟩
  refine (storeByte_yields (shown.written active written) (by omega) (value i)).mono ?_
  rintro ⟨⟩ m2 ⟨written', bytes'⟩
  refine ⟨written.trans written', fun x here => ?_⟩
  rw [bytes' x here, bytes x here]
  by_cases last : x = first + i
  · rw [if_pos last, if_pos (by omega), last, Nat.add_sub_cancel_left]
  · rw [if_neg last]
    by_cases before : first ≤ x ∧ x < first + i
    · rw [if_pos before, if_pos (by omega)]
    · rw [if_neg before, if_neg (by omega)]

end Stores

end Neutrino.Virtual
