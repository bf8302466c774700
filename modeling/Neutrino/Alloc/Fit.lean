import Neutrino.Alloc.Cases

namespace Neutrino.Alloc

open Library

/-- The block for a request, at a place that is found for it. -/
def Block.make (req at' : Nat) : Block := ⟨at', req + 32, req⟩

/-- The minors of the arena with a new one in the first gap that is large enough. -/
def Arena.room (a : Arena) (req : Nat) : Option (List Block) :=
  FirstFit.place Block.addr Block.stop (req + 72) (Block.make req) (a.base + 40) a.stop a.blocks

/-- What the search for a place in an arena comes back with. -/
def Searched (before : List Arena) (a : Arena) (behind : List Arena) (req : Nat) (s : Liballoc) (room : Option (List Block))
    (p : Option W64) (s' : Liballoc) : Prop :=
  match room with
  | none => p = none ∧ s' = s
  | some blocks => ∃ xs ys b, a.blocks = xs ++ ys ∧ blocks = xs ++ b :: ys ∧ b.req = req ∧ b.size = req + 32 ∧
      ∃ p', p = some p' ∧ Placed before a behind xs ys b s p' s'

variable {before behind : List Arena} {a : Arena} {xs ys blocks : List Block} {b c d : Block} {s : Liballoc} {req : Nat}

theorem Block.make_bounds (req at' : Nat) :
    (Block.make req at').addr = at' ∧ (Block.make req at').stop = at' + (req + 72) := by
  simp only [Block.make, Block.stop, true_and]
  omega

theorem Laid.insert (laid : Laid (before ++ a :: behind))
    (ordered : FirstFit.Ordered Block.addr Block.stop (a.base + 40) a.stop blocks)
    (members : ∀ e ∈ blocks, e ∈ a.blocks ∨ e.req + 32 ≤ e.size) :
    Laid (before ++ a.withBlocks blocks :: behind) := by
  have good := laid.each a List.mem_append_cons_self
  constructor
  · intro e member
    rcases mem_middle.mp member with rfl | other
    · refine ⟨good.pos, good.fits, good.small, ordered, fun e member => ?_⟩
      rcases members e member with old | sized
      · exact good.sized e old
      · exact sized
    · exact laid.each e (mem_middle.mpr (.inr other))
  · have apart := laid.apart
    rw [List.pairwise_middle Arena.Apart.symm, List.pairwise_cons] at apart ⊢
    exact apart

theorem Good.insert (good : Good (before ++ a :: behind))
    (ordered : FirstFit.Ordered Block.addr Block.stop (a.base + 40) a.stop blocks)
    (members : ∀ e ∈ blocks, e ∈ a.blocks ∨ e.req + 32 ≤ e.size) (some : blocks ≠ []) :
    Good (before ++ a.withBlocks blocks :: behind) := by
  refine ⟨good.toLaid.insert ordered members, fun e member => ?_⟩
  rcases mem_middle.mp member with rfl | other
  · exact some
  · exact good.used e (mem_middle.mpr (.inr other))

theorem gap_iff {hi : Nat} (size : c.size < 2 ^ 32) (less : c.stop ≤ hi) (bound : hi ≤ 2 ^ 64) (small : req + 72 < 2 ^ 32) :
    size64 req + 40#64 ≤ BitVec.ofNat 64 hi - c.min - 40#64 - (BitVec.ofNat 32 c.size).setWidth 64 ↔
      c.stop + (req + 72) ≤ hi := by
  unfold Block.stop at less ⊢
  rw [setWidth_ofNat size, ofNat_sub_ofNat (by omega), ofNat_sub_ofNat (by omega), ofNat_sub_ofNat (by omega),
    ← BitVec.ofNat_add (req + 32) 40, ofNat_le (by omega) (by omega)]
  omega

theorem limit_eq (small : a.bytes < 2 ^ 32) :
    a.maj + (BitVec.ofNat 32 a.bytes).setWidth 64 = BitVec.ofNat 64 a.stop := by
  rw [setWidth_ofNat small, Arena.stop, BitVec.ofNat_add]

variable (holds : s.Holds (before ++ a :: behind)) (laid : Laid (before ++ a :: behind))
include holds laid

theorem Gap.after (split : a.blocks = xs ++ [c] ++ ys) (room : c.stop + (req + 72) ≤ a.stop)
    (next : ∀ d ∈ ys.head?, c.stop + (req + 72) ≤ d.addr) :
    Gap before a behind (xs ++ [c]) ys (Block.make req c.stop) s := by
  have ordered := (laid.each a List.mem_append_cons_self).ordered
  rw [split, ← List.append_cons, FirstFit.Ordered.append] at ordered
  obtain ⟨left, own, right⟩ := ordered
  obtain ⟨addr, stop⟩ := Block.make_bounds req c.stop
  refine ⟨holds, laid, split, laid.insert ?_ fun e member => ?_⟩
  · rw [← List.append_cons]
    refine FirstFit.Ordered.append.mpr ⟨left, own, by omega, by omega, ?_⟩
    rw [stop]
    cases ys with
    | nil => exact room
    | cons d ys => exact ⟨next d rfl, right.2⟩
  · rcases mem_middle.mp member with rfl | old
    · exact .inr (Nat.le_refl _)
    · exact .inl (by rw [split]; exact old)

theorem Gap.front (room : a.base + 40 + (req + 72) ≤ a.stop)
    (next : ∀ d ∈ a.blocks.head?, a.base + 40 + (req + 72) ≤ d.addr) :
    Gap before a behind [] a.blocks (Block.make req (a.base + 40)) s := by
  have ordered := (laid.each a List.mem_append_cons_self).ordered
  obtain ⟨addr, stop⟩ := Block.make_bounds req (a.base + 40)
  refine ⟨holds, laid, rfl, laid.insert ⟨by omega, by omega, ?_⟩ fun e member => ?_⟩
  · rw [stop]
    cases split : a.blocks with
    | nil => exact room
    | cons d ys =>
      rw [split] at ordered
      exact ⟨next d (by rw [split]; rfl), ordered.2⟩
  · rcases List.mem_cons.mp member with rfl | old
    · exact .inr (Nat.le_refl _)
    · exact .inl old

theorem placeBehind_yields {fuel : Nat} (split : a.blocks = xs ++ [c] ++ ys) (small : req + 72 < 2 ^ 32)
    (enough : ys.length + 2 ≤ fuel) :
    Yields s (placeBehind a.maj (size64 req) (req32 req) fuel c.min) (Searched before a behind req s
      ((FirstFit.place Block.addr Block.stop (req + 72) (Block.make req) c.stop a.stop ys).map (xs ++ [c] ++ ·))) := by
  have here : a ∈ before ++ a :: behind := List.mem_append_cons_self
  have good := laid.each a here
  have fits := good.fits
  induction ys generalizing xs c fuel with
  | nil =>
    obtain ⟨fuel, rfl⟩ : ∃ n, fuel = n + 2 := ⟨fuel - 2, by simp only [List.length_nil] at enough; omega⟩
    have inside : c ∈ a.blocks := by rw [split]; simp
    have block := good.block inside
    have size := good.size_small inside
    have list := laid.minors_list holds here
    rw [split, List.append_nil, List.map_append] at list
    obtain ⟨next, prev, node⟩ := holds.major
    have node' : records s.mem c.min = some ⟨(c.node a).2, 0#64, _⟩ := list.node
    rw [placeBehind, if_neg (ofNat_ne_zero (by omega) (by omega))]
    refine .after (read_eq node' .next) ?_
    simp only [Field.get, if_true, pure_bind]
    refine .after (read_eq node .two) (.after (read_eq node' .two) ?_)
    have fit_iff := @gap_iff c req a.stop size (by omega) fits small
    rw [← limit_eq good.small] at fit_iff
    refine .ite (fun fit => ?_) fun full => ?_
    · replace fit := fit_iff.mp fit
      rw [FirstFit.place, if_pos fit, Option.map_some]
      refine ((Gap.after holds laid split fit fun d first => by cases first).placeLast_yields rfl).bind fun p s' placed => ?_
      exact .pure ⟨xs ++ [c], [], Block.make req c.stop, split, rfl, rfl, rfl, p, rfl, placed⟩
    · rw [FirstFit.place, if_neg (mt fit_iff.mpr full), placeBehind, if_pos rfl]
      exact .pure ⟨rfl, rfl⟩
  | cons d ys ih =>
    obtain ⟨fuel, rfl⟩ : ∃ n, fuel = n + 1 := ⟨fuel - 1, by rw [List.length_cons] at enough; omega⟩
    have inside : c ∈ a.blocks := by rw [split]; simp
    have inside' : d ∈ a.blocks := by rw [split]; simp
    have block := good.block inside
    have block' := good.block inside'
    have size := good.size_small inside
    have ordered := good.ordered
    rw [split, ← List.append_cons, FirstFit.Ordered.append] at ordered
    have less := ordered.2.2.1
    have list := laid.minors_list holds here
    rw [split, ← List.append_cons, List.map_append] at list
    have node' : records s.mem c.min = some ⟨(c.node a).2, d.min, _⟩ := list.node
    have proper : d.min ≠ 0#64 := ofNat_ne_zero (by omega) (by omega)
    rw [placeBehind, if_neg (ofNat_ne_zero (by omega) (by omega))]
    refine .after (read_eq node' .next) ?_
    simp only [Field.get, if_neg proper, pure_bind]
    refine .after (read_eq node' .two) ?_
    refine .ite (fun fit => ?_) fun full => ?_
    · replace fit := (gap_iff size less (by omega) small).mp fit
      have gap := Gap.after holds laid split (by omega : c.stop + (req + 72) ≤ a.stop) fun e first => by cases first; exact fit
      rw [FirstFit.place, if_pos fit, Option.map_some]
      refine .ite (fun zero => absurd zero proper) fun _ => ?_
      refine (gap.placeBetween_yields rfl).bind fun p s' placed => ?_
      exact .pure ⟨xs ++ [c], d :: ys, Block.make req c.stop, split, rfl, rfl, rfl, p, rfl, placed⟩
    · replace full := mt (gap_iff size less (by omega) small).mpr full
      have split' : a.blocks = xs ++ [c] ++ [d] ++ ys := by rw [split, List.append_cons]
      rw [List.length_cons] at enough
      have rest := ih split' (by omega : ys.length + 2 ≤ fuel)
      rw [FirstFit.place, if_neg full, Option.map_map]
      simp only [Function.comp_def, List.append_assoc, List.singleton_append] at rest ⊢
      exact rest

theorem placeIn_yields {fuel : Nat} (small : req + 72 < 2 ^ 32) (fresh : a.blocks = [] → req + 112 ≤ a.bytes)
    (enough : a.blocks.length + 1 ≤ fuel) :
    Yields s (placeIn fuel a.maj (size64 req) (req32 req)) (Searched before a behind req s (a.room req)) := by
  have good := laid.each a List.mem_append_cons_self
  have fits := good.fits
  obtain ⟨next, prev, node⟩ := holds.major
  unfold placeIn Arena.room
  refine .after (read_eq node .owner) ?_
  cases split : a.blocks with
  | nil =>
    have first : a.first = 0#64 := by rw [Arena.first, split]; rfl
    have room : a.base + 40 + (req + 72) ≤ a.stop := by
      have := fresh split
      unfold Arena.stop
      omega
    have gap := Gap.front holds laid room fun d head => by rw [split] at head; cases head
    rw [split] at gap
    simp only [Field.get, Arena.node, first, if_true]
    rw [FirstFit.place, if_pos room]
    refine (gap.placeFirst_yields rfl).bind fun p s' placed => ?_
    exact .pure ⟨[], [], Block.make req (a.base + 40), split, rfl, rfl, rfl, p, rfl, placed⟩
  | cons c ys =>
    have first : a.first = c.min := by rw [Arena.first, split]; rfl
    have inside : c ∈ a.blocks := by rw [split]; exact List.mem_cons_self
    have block := good.block inside
    have proper : c.min ≠ 0#64 := ofNat_ne_zero (by omega) (by omega)
    simp only [Field.get, Arena.node, first, if_neg proper]
    have front : size64 req + 40#64 ≤ c.min - a.maj - 40#64 ↔ a.base + 40 + (req + 72) ≤ c.addr := by
      rw [ofNat_sub_ofNat (by omega), ofNat_sub_ofNat (by omega), ← BitVec.ofNat_add (req + 32) 40,
        ofNat_le (by omega) (by omega)]
      omega
    refine .ite (fun fit => ?_) fun full => ?_
    · replace fit := front.mp fit
      have gap := Gap.front holds laid (by omega : a.base + 40 + (req + 72) ≤ a.stop) fun d head => by
        rw [split] at head
        cases head
        exact fit
      rw [split] at gap
      rw [FirstFit.place, if_pos fit]
      refine (gap.placeFront_yields rfl).bind fun p s' placed => ?_
      exact .pure ⟨[], c :: ys, Block.make req (a.base + 40), split, rfl, rfl, rfl, p, rfl, placed⟩
    · rw [split, List.length_cons] at enough
      rw [FirstFit.place, if_neg (mt front.mpr full)]
      exact @placeBehind_yields before behind a [] ys c s req holds laid fuel split small (by omega)

end Neutrino.Alloc
