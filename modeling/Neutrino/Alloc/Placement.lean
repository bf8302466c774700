import Neutrino.Alloc.Layout

namespace Neutrino.Alloc

open Library

section Pointers

variable {s : Liballoc} {b : Block}

theorem and_fifteen (n : Nat) : BitVec.ofNat 64 n &&& 15#64 = BitVec.ofNat 64 (n % 16) := by
  apply BitVec.eq_of_toNat_eq
  rw [BitVec.toNat_and, BitVec.toNat_ofNat, BitVec.toNat_ofNat, BitVec.toNat_ofNat]
  have mask : 15 % 2 ^ 64 = 2 ^ 4 - 1 := rfl
  rw [mask, Nat.and_two_pow_sub_one_eq_mod]
  omega

theorem align_eq (small : b.pointer < 2 ^ 64) : align (BitVec.ofNat 64 (b.addr + 40)) s =
    some (b.ptr, { s with mem := put s.mem b.mark (BitVec.ofNat 8 (b.pointer - (b.addr + 40))) }) := by
  have bounds := b.pointer_bounds
  have start : BitVec.ofNat 64 (b.addr + 40) + 16#64 = BitVec.ofNat 64 (b.addr + 56) := by
    rw [← BitVec.ofNat_add]
  have diff : (if BitVec.ofNat 64 ((b.addr + 56) % 16) ≠ 0#64 then 16#64 - BitVec.ofNat 64 ((b.addr + 56) % 16)
      else BitVec.ofNat 64 ((b.addr + 56) % 16)) = BitVec.ofNat 64 (b.pointer - (b.addr + 56)) := by
    by_cases zero : (b.addr + 56) % 16 = 0
    · have exact' : b.pointer - (b.addr + 56) = 0 := by
        unfold Block.pointer
        omega
      rw [zero, exact', if_neg (by simp)]
    · have gap : b.pointer - (b.addr + 56) = 16 - (b.addr + 56) % 16 := by
        unfold Block.pointer
        omega
      rw [gap, if_pos (ofNat_ne_zero (by omega) (by omega)), ← ofNat_sub_ofNat (by omega)]
  have place : BitVec.ofNat 64 (b.addr + 56) + BitVec.ofNat 64 (b.pointer - (b.addr + 56)) = b.ptr := by
    rw [← BitVec.ofNat_add]
    congr 1
    omega
  have note : b.ptr - 16#64 = b.mark := ofNat_sub_ofNat (by omega)
  have value : (BitVec.ofNat 64 (b.pointer - (b.addr + 56)) + 16#64).setWidth 8 =
      BitVec.ofNat 8 (b.pointer - (b.addr + 40)) := by
    apply BitVec.eq_of_toNat_eq
    rw [BitVec.toNat_setWidth, BitVec.toNat_add, BitVec.toNat_ofNat, BitVec.toNat_ofNat, BitVec.toNat_ofNat]
    omega
  rw [align, start, and_fifteen, diff, place, note, value]
  rfl

theorem unalign_eq (small : b.pointer < 2 ^ 64) (marked : b.Marked s.mem) :
    unalign b.ptr s = some (BitVec.ofNat 64 (b.addr + 40), s) := by
  have bounds := b.pointer_bounds
  have note : b.ptr - 16#64 = b.mark := ofNat_sub_ofNat (by omega)
  have diff : (BitVec.ofNat 8 (b.pointer - (b.addr + 40))).signExtend 64 = BitVec.ofNat 64 (b.pointer - (b.addr + 40)) := by
    have near : b.pointer - (b.addr + 40) < 32 := by omega
    generalize b.pointer - (b.addr + 40) = d at near
    have all : ∀ d < 32, (BitVec.ofNat 8 d).signExtend 64 = BitVec.ofNat 64 d := by decide
    exact all d near
  have unfolded : unalign b.ptr s = some (if (fetch 8 s.mem (b.ptr - 16#64)).signExtend 64 < 32#64
      then b.ptr - (fetch 8 s.mem (b.ptr - 16#64)).signExtend 64 else b.ptr, s) := rfl
  rw [Block.Marked] at marked
  rw [unfolded, note, marked, diff, if_pos ((ofNat_lt (by omega) (by omega)).mpr (by omega)), ofNat_sub_ofNat (by omega)]
  congr 3
  omega

end Pointers

/-- A new block has been handed out: its major is charged for it, and the note stands before the pointer. -/
structure HandedOut (arenas : List Arena) (b : Block) (s0 s : Liballoc) (h : LinkStore W64 Counts) : Prop where
  typed : ∀ x ∈ sites arenas, records s.mem x = h x
  mark : b.Marked s.mem
  frame : ∀ x, (∀ y ∈ sites arenas, ¬ Within y 40 x) → x ≠ b.mark → s.mem x = s0.mem x
  vars : s = { s0 with mem := s.mem, inuse := s0.inuse + BitVec.ofNat 64 b.size, locked := false }

theorem put_byte {mem : ByteMemory} {x y : W64} {v : BitVec 8} (ne : y ≠ x) : put mem x v y = mem y := by
  apply put_other
  intro inside
  have zero : (y - x).toNat = 0 := Nat.lt_one_iff.mp inside
  exact ne (by bv_omega)

theorem handOut_yields {arenas : List Arena} {a : Arena} {b : Block} {s0 s : Liballoc} {h : LinkStore W64 Counts}
    {n : LinkNode W64 Counts} (laid : Laid arenas) (member : a ∈ arenas) (inside : b ∈ a.blocks)
    (track : Track (sites arenas) s0 s h) (here : h a.maj = some n) :
    Yields s (handOut a.maj b.min (BitVec.ofNat 64 b.size)) fun p s' =>
      p = b.ptr ∧ HandedOut arenas b s0 s' (Function.update h a.maj
        (some (Field.three.set n ((n.data.three.setWidth 64 + (BitVec.ofNat 64 b.size + 40#64)).setWidth 32)))) := by
  have fits := (laid.each a member).fits
  have block := (laid.each a member).block inside
  have mark := b.mark_bounds ((laid.each a member).sized b inside)
  have site := (IsSite.major member).mem
  have apart := laid.not_header member inside mark.1 mark.2.1
  have start : b.min + 40#64 = BitVec.ofNat 64 (b.addr + 40) := (BitVec.ofNat_add b.addr 40).symm
  unfold handOut
  refine track.read site here .three ?_
  refine track.write site here .three fun s1 track => ?_
  refine .after rfl ?_
  rw [start]
  refine .after (align_eq (by omega)) (.after rfl (.pure ⟨rfl, ?_⟩))
  refine ⟨fun x listed => ?_, ?_, fun x away other => ?_, ?_⟩
  · refine Eq.trans (records_congr fun y inside => put_byte ?_) (track.typed x listed)
    rintro rfl
    exact apart x listed inside
  · exact fetch_put (by omega) (by omega)
  · exact (put_byte other).trans (track.frame x away)
  · simp only
    rw [track.vars]

/-- The allocator has written to its own bytes only, and the memory holds these majors now. -/
structure Edited (arenas : List Arena) (s s' : Liballoc) : Prop where
  holds : Holds s'.mem s.memRoot arenas
  frame : ∀ x, ¬ Bookkeeping arenas x → s'.mem x = s.mem x
  vars : s' = { s with mem := s'.mem }

/-- The variables once a block is handed out. -/
def Liballoc.charged (s : Liballoc) (b : Block) : Liballoc :=
  { s with inuse := s.inuse + BitVec.ofNat 64 b.size, locked := false }

section Lists

variable {arenas before behind : List Arena} {a : Arena} {xs ys blocks : List Block} {b : Block} {s : Liballoc} {root : W64}

theorem Laid.minors_nodup (laid : Laid arenas) (member : a ∈ arenas) : (a.blocks.map Block.min).Nodup := by
  rw [List.nodup_iff_pairwise_ne, List.pairwise_map]
  refine (laid.each a member).ordered.pairwise.imp_of_mem fun {b c} inside inside' less => ?_
  have block := (laid.each a member).block inside
  exact laid.site_ne (.minor member inside) (.minor member inside') (by omega)

theorem Laid.minors_list (laid : Laid arenas) (holds : Holds s.mem root arenas) (member : a ∈ arenas) :
    LinkedList (records s.mem) 0#64 a.first (a.blocks.map (Block.node a)) := by
  refine ⟨holds.minors a member, ?_, fun zero => ?_⟩
  · rw [List.map_map]
    exact laid.minors_nodup member
  · obtain ⟨b, inside, same⟩ := mem_minors zero
    have bounds := laid.site_bounds (.minor member inside)
    exact ofNat_ne_zero bounds.1 (by omega) same.symm

theorem Arena.first_eq {h : LinkStore W64 Counts} {p q : W64} (segment : Segment h p q (blocks.map (Block.node a)) 0#64) :
    q = (a.withBlocks blocks).first := by
  rw [segment.head_getD, Arena.first, Arena.withBlocks_blocks, List.head?_map]
  cases blocks.head? <;> rfl

theorem Arena.first_mem (some : (a.withBlocks blocks).first ≠ 0#64) : ∃ c ∈ blocks, (a.withBlocks blocks).first = c.min := by
  cases blocks with
  | nil => exact absurd rfl some
  | cons c blocks => exact ⟨c, List.mem_cons_self, rfl⟩

theorem Arena.withBlocks_self (split : a.blocks = blocks) : a.withBlocks blocks = a := by
  rw [← split]
  rfl

theorem Holds.major (holds : Holds s.mem root (before ++ a :: behind)) :
    ∃ next prev, records s.mem a.maj = some ⟨a.node.2, next, prev⟩ := by
  have majors := holds.majors
  rw [List.map_append, List.map_cons] at majors
  obtain ⟨_, next, node, _⟩ := majors.split_cons
  exact ⟨next, _, node⟩

theorem charge_eq {usage size : Nat} (small : usage < 2 ^ 32) :
    ((BitVec.ofNat 32 usage).setWidth 64 + (BitVec.ofNat 64 size + 40#64)).setWidth 32 =
      BitVec.ofNat 32 (usage + (40 + size)) := by
  rw [setWidth_ofNat small, ← BitVec.ofNat_add size 40, ← BitVec.ofNat_add, setWidth_ofNat_low, Nat.add_comm size 40]

end Lists

abbrev grown (before : List Arena) (a : Arena) (behind : List Arena) (xs ys : List Block) (b : Block) : List Arena :=
  before ++ a.withBlocks (xs ++ b :: ys) :: behind

/-- A place for a new block among those of a major. -/
structure Gap (before : List Arena) (a : Arena) (behind : List Arena) (xs ys : List Block) (b : Block) (s : Liballoc) :
    Prop where
  holds : s.Holds (before ++ a :: behind)
  old : Laid (before ++ a :: behind)
  split : a.blocks = xs ++ ys
  laid : Laid (grown before a behind xs ys b)

/-- The block is in its place, and the caller gets the pointer to it. -/
def Placed (before : List Arena) (a : Arena) (behind : List Arena) (xs ys : List Block) (b : Block) (s : Liballoc) (p : W64)
    (s' : Liballoc) : Prop := p = b.ptr ∧ Edited (grown before a behind xs ys b) (s.charged b) s'

namespace Gap

variable {before behind : List Arena} {a : Arena} {xs ys : List Block} {b c : Block} {s0 s : Liballoc}
  {h : LinkStore W64 Counts} (gap : Gap before a behind xs ys b s0)
include gap

theorem list : LinkedList (records s0.mem) 0#64 a.first (xs.map (Block.node a) ++ ys.map (Block.node a)) := by
  have list := gap.old.minors_list gap.holds List.mem_append_cons_self
  rw [gap.split, List.map_append] at list
  exact list

theorem start : Track (sites (grown before a behind xs ys b)) s0 s0 (records s0.mem) := .start gap.laid.headers_apart

omit gap in
theorem major : a.maj ∈ sites (grown before a behind xs ys b) :=
  (IsSite.major (a := a.withBlocks (xs ++ b :: ys)) List.mem_append_cons_self).mem

omit gap in
theorem minor (member : c ∈ xs ++ b :: ys) : c.min ∈ sites (grown before a behind xs ys b) :=
  (IsSite.minor (a := a.withBlocks (xs ++ b :: ys)) List.mem_append_cons_self member).mem

theorem ne_major (member : c ∈ xs ++ b :: ys) : c.min ≠ a.maj := by
  have here : a.withBlocks (xs ++ b :: ys) ∈ grown before a behind xs ys b := List.mem_append_cons_self
  have ne := gap.laid.minor_ne here member here
  exact ne

theorem ne_minor (member : c ∈ xs ++ ys) : c.min ≠ b.min := by
  have distinct := gap.laid.minors_nodup List.mem_append_cons_self
  rw [Arena.withBlocks_blocks, List.map_append, List.map_cons, List.nodup_middle, List.nodup_cons, ← List.map_append] at distinct
  exact ne_of_mem_of_not_mem (List.mem_map_of_mem member) distinct.1

theorem across {d : Block} (member : c ∈ xs) (member' : d ∈ ys) : c.min ≠ d.min :=
  gap.list.parts.2.2.1 _ (List.mem_map_of_mem (List.mem_map_of_mem member)) _ (List.mem_map_of_mem (List.mem_map_of_mem member'))

theorem ne_null (member : c ∈ xs ++ ys) : c.min ≠ 0#64 := by
  have listed : c ∈ a.blocks := by
    rw [gap.split]
    exact member
  have bounds := gap.old.site_bounds (.minor List.mem_append_cons_self listed)
  exact ofNat_ne_zero bounds.1 (by omega)

theorem handOut_inserted {x y : W64} (track : Track (sites (grown before a behind xs ys b)) s0 s h)
    (left : lastAddress 0#64 (xs.map (Block.node a)) = x) (right : (a.withBlocks ys).first = y)
    (inserted : Inserted 0#64 a.maj b.min (b.node a).2 x y (records s0.mem) h)
    (major : ∀ next prev, records s0.mem a.maj = some ⟨a.node.2, next, prev⟩ →
      h a.maj = some ⟨{ a.node.2 with owner := (a.withBlocks (xs ++ b :: ys)).first }, next, prev⟩) :
    Yields s (handOut a.maj b.min (BitVec.ofNat 64 b.size)) (Placed before a behind xs ys b s0) := by
  subst left right
  have here : a.withBlocks (xs ++ b :: ys) ∈ grown before a behind xs ys b := List.mem_append_cons_self
  have inside : b ∈ (a.withBlocks (xs ++ b :: ys)).blocks := List.mem_append_cons_self
  have good := gap.laid.each _ here
  obtain ⟨_, _, node⟩ := gap.holds.major
  refine (handOut_yields gap.laid here inside track (major _ _ node)).mono ?_
  rintro p s' ⟨rfl, done⟩
  have note : ∀ d ∈ grown before a behind xs ys b, ∀ c ∈ d.blocks, c ≠ b → s'.mem c.mark = s0.mem c.mark := by
    intro d member c listed ne
    have good' := gap.laid.each d member
    have block := good.block inside
    have block' := good'.block listed
    have mark := b.mark_bounds (good.sized b inside)
    have mark' := c.mark_bounds (good'.sized c listed)
    have apart := gap.laid.blocks_apart member listed here inside ne
    have fits := good.fits
    have fits' := good'.fits
    apply done.frame _ (gap.laid.not_header member listed mark'.1 mark'.2.1)
    intro equal
    have numbers := ofNat_injective (by omega) (by omega) equal
    unfold Block.Apart at apart
    omega
  refine ⟨rfl, ⟨gap.holds.replace (fun m site => ?_) (fun next' prev' node' => ?_) ?_ (fun c member => ?_) ?_,
    fun x free => ?_, done.vars⟩⟩
  · have away : ∀ c ∈ xs ++ b :: ys, BitVec.ofNat 64 m ≠ c.min := fun c member =>
      gap.laid.other_ne site (.inr ⟨c, member, rfl⟩)
    rw [done.typed _ site.other.mem, Function.update_of_ne (gap.laid.other_ne site (.inl rfl))]
    refine inserted.others _ (gap.laid.other_ne site (.inl rfl)) (away b inside) (fun some => ?_) fun some => ?_
    · obtain ⟨c, member, same⟩ := Arena.first_mem some
      rw [same]
      exact away c (List.mem_append_right _ (List.mem_cons_of_mem _ member))
    · obtain ⟨c, member, same⟩ := mem_minors (lastAddress_mem some)
      rw [same]
      exact away c (List.mem_append_left _ member)
  · have usage : (a.withBlocks (xs ++ b :: ys)).usage = a.usage + (40 + b.size) := by
      rw [Arena.withBlocks_usage, Arena.withBlocks_self gap.split]
    have less := good.usage_le
    have bytes := good.small
    cases node.symm.trans node'
    rw [done.typed _ Gap.major]
    refine (Function.update_self _ _ _).trans ?_
    simp only [Field.set, Arena.node]
    rw [charge_eq (by omega), usage]
    rfl
  · have outside : a.maj ∉ (xs.map (Block.node a) ++ ys.map (Block.node a)).map Prod.fst := by
      intro listed
      rw [← List.map_append] at listed
      obtain ⟨c, member, same⟩ := mem_minors listed
      exact gap.ne_major (mem_middle.mpr (.inr member)) same.symm
    have new : b.min ∉ (xs.map (Block.node a) ++ ys.map (Block.node a)).map Prod.fst := by
      intro listed
      rw [← List.map_append] at listed
      obtain ⟨c, member, same⟩ := mem_minors listed
      exact gap.ne_minor member same.symm
    have first : (a.withBlocks ys).first = ((ys.map (Block.node a)).head?.map Prod.fst).getD 0#64 := by
      cases ys <;> rfl
    rw [first] at inserted
    obtain ⟨p', linked⟩ := gap.list.insert outside new inserted
    change Segment h 0#64 p' (xs.map (Block.node a) ++ Block.node a b :: ys.map (Block.node a)) 0#64 at linked
    rw [← List.map_cons, ← List.map_append] at linked
    rw [← Arena.first_eq linked]
    refine minors_congr linked fun c member => ?_
    rw [done.typed _ (Gap.minor member)]
    exact Function.update_of_ne (gap.ne_major member) _ _
  · rcases mem_middle.mp member with rfl | old
    · exact done.mark
    · have marked := gap.holds.marks a List.mem_append_cons_self c (by rw [gap.split]; exact old)
      exact marked.congr (note _ here c member fun same => gap.ne_minor old (by rw [same]))
  · intro d member c listed
    refine note d (mem_middle.mpr (.inr member)) c listed fun same => ?_
    exact gap.laid.other_ne (.minor member listed) (.inr ⟨b, inside, rfl⟩) (by rw [same])
  · apply done.frame x
    · intro y listed within
      exact free (.inl ⟨y, listed, within⟩)
    · rintro rfl
      exact free (.inr ⟨_, here, b, inside, rfl⟩)

end Gap

end Neutrino.Alloc
