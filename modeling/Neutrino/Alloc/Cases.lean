import Neutrino.Alloc.Placement

namespace Neutrino.Alloc.Gap

open Library

variable {before behind : List Arena} {a : Arena} {xs ys : List Block} {b c d : Block} {s : Liballoc}

theorem placeFirst_yields (gap : Gap before a behind [] [] b s) (start : b.addr = a.base + 40) :
    Yields s (placeFirst a.maj (BitVec.ofNat 64 b.size) (BitVec.ofNat 32 b.req)) (Placed before a behind [] [] b s) := by
  have minor := @Gap.minor before behind a [] [] b b List.mem_cons_self
  have bM := gap.ne_major List.mem_cons_self
  have first : a.maj + 40#64 = b.min := by rw [Block.min, start, BitVec.ofNat_add]
  obtain ⟨_, _, node⟩ := gap.holds.major
  unfold placeFirst
  rw [first, setWidth_ofNat_low]
  refine gap.start.write Gap.major node .owner fun s1 track => ?_
  refine track.read Gap.major (Function.update_self _ _ _) .owner ?_
  refine track.write minor (Function.update_of_ne bM _ _) .one fun s2 track => ?_
  refine track.again minor .prev fun s3 track => ?_
  refine track.again minor .next fun s4 track => ?_
  refine track.again minor .owner fun s5 track => ?_
  refine track.again minor .two fun s6 track => ?_
  refine track.again minor .three fun s7 track => ?_
  refine gap.handOut_inserted (x := 0#64) (y := 0#64) track rfl rfl ⟨Function.update_self _ _ _, fun some => absurd rfl some,
    fun some => absurd rfl some, fun x away new _ _ => ?_⟩ fun _ _ there => ?_
  · rw [Function.update_of_ne new, Function.update_of_ne away]
  · cases node.symm.trans there
    rw [Function.update_of_ne bM.symm]
    exact Function.update_self _ _ _

theorem right (gap : Gap before a behind xs (c :: ys) b s) :
    ∃ next, records s.mem c.min = some ⟨(c.node a).2, next, lastAddress 0#64 (xs.map (Block.node a))⟩ := by
  obtain ⟨-, next, node, -⟩ := gap.list.segment.split_cons
  exact ⟨next, node⟩

theorem left (gap : Gap before a behind (xs ++ [c]) ys b s) :
    ∃ prev, records s.mem c.min = some ⟨(c.node a).2, (a.withBlocks ys).first, prev⟩ := by
  have list := gap.list
  rw [List.map_append, List.map_singleton, ← List.append_cons] at list
  obtain ⟨-, next, node, rest⟩ := list.segment.split_cons
  rw [Arena.first_eq rest] at node
  exact ⟨_, node⟩

theorem placeFront_yields (gap : Gap before a behind [] (c :: ys) b s) (start : b.addr = a.base + 40) :
    Yields s (placeFront a.maj (BitVec.ofNat 64 b.size) (BitVec.ofNat 32 b.req)) (Placed before a behind [] (c :: ys) b s) := by
  have inC : c ∈ b :: c :: ys := List.mem_cons_of_mem _ List.mem_cons_self
  have minor := @Gap.minor before behind a [] (c :: ys) b b List.mem_cons_self
  have minor' := @Gap.minor before behind a [] (c :: ys) b c inC
  have bM := gap.ne_major List.mem_cons_self
  have cM := gap.ne_major inC
  have cb := gap.ne_minor List.mem_cons_self
  have first : a.maj + 40#64 = b.min := by rw [Block.min, start, BitVec.ofNat_add]
  have owner : a.first = c.min := by rw [Arena.first, gap.split]; rfl
  obtain ⟨next, prev, node⟩ := gap.holds.major
  obtain ⟨next', node'⟩ := gap.right
  unfold placeFront
  rw [first, setWidth_ofNat_low]
  refine gap.start.read Gap.major node .owner ?_
  simp only [Field.get, Arena.node, owner]
  refine gap.start.write minor' node' .prev fun s1 track => ?_
  refine track.read minor' (Function.update_self _ _ _) .prev ?_
  refine track.write minor (Function.update_of_ne cb.symm _ _) .next fun s2 track => ?_
  refine track.read minor' ((Function.update_of_ne cb _ _).trans (Function.update_self _ _ _)) .prev ?_
  refine track.write Gap.major ((Function.update_of_ne bM.symm _ _).trans
    ((Function.update_of_ne cM.symm _ _).trans node)) .owner fun s3 track => ?_
  refine track.read Gap.major (Function.update_self _ _ _) .owner ?_
  refine track.write minor ((Function.update_of_ne bM _ _).trans (Function.update_self _ _ _)) .one fun s4 track => ?_
  refine track.again minor .prev fun s5 track => ?_
  refine track.again minor .owner fun s6 track => ?_
  refine track.again minor .two fun s7 track => ?_
  refine track.again minor .three fun s8 track => ?_
  refine gap.handOut_inserted (x := 0#64) (y := c.min) track rfl rfl ⟨Function.update_self _ _ _, fun _ m there => ?_,
    fun some => absurd rfl some, fun x away new other _ => ?_⟩ fun _ _ there => ?_
  · cases node'.symm.trans there
    rw [Function.update_of_ne cb, Function.update_of_ne cM, Function.update_of_ne cb]
    exact Function.update_self _ _ _
  · rw [Function.update_of_ne new, Function.update_of_ne away, Function.update_of_ne new]
    exact Function.update_of_ne (other (gap.ne_null List.mem_cons_self)) _ _
  · cases node.symm.trans there
    rw [Function.update_of_ne bM.symm]
    exact Function.update_self _ _ _

theorem first_eq (gap : Gap before a behind (xs ++ [c]) ys b s) : a.first = (a.withBlocks (xs ++ [c] ++ b :: ys)).first := by
  rw [Arena.first, Arena.first, gap.split]
  cases xs <;> rfl

theorem last_eq : lastAddress 0#64 ((xs ++ [c]).map (Block.node a)) = c.min := by
  rw [List.map_append]
  exact lastAddress_snoc

theorem stop_eq (gap : Gap before a behind (xs ++ [c]) ys b s) (start : b.addr = c.stop) :
    c.min + 40#64 + (BitVec.ofNat 32 c.size).setWidth 64 = b.min := by
  have small := (gap.laid.each _ List.mem_append_cons_self).size_small (b := c) (by simp)
  rw [setWidth_ofNat small, Block.min, Block.min, start, Block.stop, BitVec.ofNat_add, BitVec.ofNat_add]

theorem placeLast_yields (gap : Gap before a behind (xs ++ [c]) [] b s) (start : b.addr = c.stop) :
    Yields s (placeLast a.maj c.min (BitVec.ofNat 64 b.size) (BitVec.ofNat 32 b.req))
      (Placed before a behind (xs ++ [c]) [] b s) := by
  have inC : c ∈ xs ++ [c] ++ [b] := by simp
  have minor := @Gap.minor before behind a (xs ++ [c]) [] b c inC
  have minor' := @Gap.minor before behind a (xs ++ [c]) [] b b List.mem_append_cons_self
  have cb := gap.ne_minor (c := c) (by simp)
  obtain ⟨prev, node⟩ := gap.left
  unfold placeLast
  rw [setWidth_ofNat_low]
  refine gap.start.read minor node .two ?_
  simp only [Field.get, Block.node]
  rw [gap.stop_eq start]
  refine gap.start.write minor node .next fun s1 track => ?_
  refine track.read minor (Function.update_self _ _ _) .next ?_
  refine track.write minor' (Function.update_of_ne cb.symm _ _) .prev fun s2 track => ?_
  refine track.again minor' .next fun s3 track => ?_
  refine track.again minor' .one fun s4 track => ?_
  refine track.again minor' .owner fun s5 track => ?_
  refine track.again minor' .two fun s6 track => ?_
  refine track.again minor' .three fun s7 track => ?_
  refine gap.handOut_inserted (x := c.min) (y := 0#64) track last_eq rfl ⟨Function.update_self _ _ _,
    fun some => absurd rfl some, fun _ m there => ?_, fun x _ new _ other => ?_⟩ fun _ _ there => ?_
  · cases node.symm.trans there
    rw [Function.update_of_ne cb]
    exact Function.update_self _ _ _
  · rw [Function.update_of_ne new, Function.update_of_ne (other (gap.ne_null (by simp)))]
  · rw [Function.update_of_ne (gap.ne_major List.mem_append_cons_self).symm, Function.update_of_ne (gap.ne_major inC).symm,
      there, ← gap.first_eq]
    rfl

theorem placeBetween_yields (gap : Gap before a behind (xs ++ [c]) (d :: ys) b s) (start : b.addr = c.stop) :
    Yields s (placeBetween a.maj c.min (BitVec.ofNat 64 b.size) (BitVec.ofNat 32 b.req))
      (Placed before a behind (xs ++ [c]) (d :: ys) b s) := by
  have inC : c ∈ xs ++ [c] ++ b :: d :: ys := by simp
  have inD : d ∈ xs ++ [c] ++ b :: d :: ys := by simp
  have minor := @Gap.minor before behind a (xs ++ [c]) (d :: ys) b c inC
  have minor' := @Gap.minor before behind a (xs ++ [c]) (d :: ys) b b List.mem_append_cons_self
  have minor'' := @Gap.minor before behind a (xs ++ [c]) (d :: ys) b d inD
  have cb := gap.ne_minor (c := c) (by simp)
  have db := gap.ne_minor (c := d) (by simp)
  have cd := gap.across (c := c) (by simp) List.mem_cons_self
  obtain ⟨prev, node⟩ := gap.left
  obtain ⟨next, node'⟩ := gap.right
  rw [last_eq] at node'
  unfold placeBetween
  rw [setWidth_ofNat_low]
  refine gap.start.read minor node .two ?_
  simp only [Field.get, Block.node]
  rw [gap.stop_eq start]
  refine gap.start.write minor' rfl .one fun s1 track => ?_
  refine track.read minor ((Function.update_of_ne cb _ _).trans node) .next ?_
  refine track.again minor' .next fun s2 track => ?_
  refine track.again minor' .prev fun s3 track => ?_
  refine track.again minor' .two fun s4 track => ?_
  refine track.again minor' .three fun s5 track => ?_
  refine track.again minor' .owner fun s6 track => ?_
  refine track.read minor ((Function.update_of_ne cb _ _).trans node) .next ?_
  refine track.write minor'' ((Function.update_of_ne db _ _).trans node') .prev fun s7 track => ?_
  refine track.write minor ((Function.update_of_ne cd _ _).trans ((Function.update_of_ne cb _ _).trans node)) .next
    fun s8 track => ?_
  refine gap.handOut_inserted (x := c.min) (y := d.min) track last_eq rfl ⟨?_, fun _ m there => ?_, fun _ m there => ?_,
    fun x _ new other other' => ?_⟩ fun _ _ there => ?_
  · rw [Function.update_of_ne cb.symm, Function.update_of_ne db.symm]
    exact Function.update_self _ _ _
  · cases node'.symm.trans there
    rw [Function.update_of_ne cd.symm]
    exact Function.update_self _ _ _
  · cases node.symm.trans there
    exact Function.update_self _ _ _
  · rw [Function.update_of_ne (other' (gap.ne_null (by simp))), Function.update_of_ne (other (gap.ne_null (by simp))),
      Function.update_of_ne new]
  · rw [Function.update_of_ne (gap.ne_major inC).symm, Function.update_of_ne (gap.ne_major inD).symm,
      Function.update_of_ne (gap.ne_major List.mem_append_cons_self).symm, there, ← gap.first_eq]
    rfl

end Neutrino.Alloc.Gap
