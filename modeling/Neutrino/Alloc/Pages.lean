import Neutrino.Alloc.Fit

namespace Neutrino.Alloc

open Library

/-- The pages that are asked for when no major has room for a request. -/
def pagesFor (req : Nat) : Nat := max 16 ((req + 112 + 4095) / 4096)

/-- The pages from `q` on, before the first allocation in them. -/
def fresh (q : W64) (req : Nat) : Arena := ⟨q.toNat, pagesFor req, []⟩

/-- The calls of the allocator that ask for pages: a refusal, and a grant. -/
def Liballoc.refused (s : Liballoc) (req : Nat) : Liballoc :=
  { s with pages := s.pages.tail, asked := s.asked ++ [BitVec.ofNat 32 (pagesFor req)] }

def Liballoc.granted (s : Liballoc) (req : Nat) : Liballoc :=
  { s.refused req with allocated := s.allocated + BitVec.ofNat 64 (pagesFor req * 4096) }

section Counting

variable {n req : Nat}

theorem pages_up (small : n < 2 ^ 32) :
    (if BitVec.ofNat 32 n % 0x1000#32 = 0#32 then BitVec.ofNat 32 n / 0x1000#32
      else BitVec.ofNat 32 n / 0x1000#32 + 1#32) = BitVec.ofNat 32 ((n + 4095) / 4096) := by
  have number : (BitVec.ofNat 32 n).toNat = n := by rw [BitVec.toNat_ofNat, Nat.mod_eq_of_lt small]
  have page : (0x1000#32).toNat = 4096 := rfl
  have rest : BitVec.ofNat 32 n % 0x1000#32 = 0#32 ↔ n % 4096 = 0 := by
    constructor
    · intro zero
      have numbers := congrArg BitVec.toNat zero
      rw [BitVec.toNat_umod, number] at numbers
      exact numbers
    · intro zero
      apply BitVec.eq_of_toNat_eq
      rw [BitVec.toNat_umod, number]
      exact zero
  apply BitVec.eq_of_toNat_eq
  by_cases zero : n % 4096 = 0
  · rw [if_pos (rest.mpr zero), BitVec.toNat_udiv, number, page, BitVec.toNat_ofNat]
    omega
  · rw [if_neg (mt rest.mp zero), BitVec.toNat_add, BitVec.toNat_udiv, number, page, BitVec.toNat_ofNat, BitVec.toNat_ofNat]
    omega

theorem at_least (small : n < 2 ^ 32) :
    (if BitVec.ofNat 32 n < 16#32 then 16#32 else BitVec.ofNat 32 n) = BitVec.ofNat 32 (max 16 n) := by
  have less : BitVec.ofNat 32 n < 16#32 ↔ n < 16 := by
    rw [BitVec.lt_def, BitVec.toNat_ofNat, Nat.mod_eq_of_lt small]
    exact Iff.rfl
  by_cases few : n < 16
  · rw [if_pos (less.mpr few), Nat.max_eq_left (by omega)]
  · rw [if_neg (mt less.mp few), Nat.max_eq_right (by omega)]

theorem pagesFor_bounds (small : req + 4208 ≤ 2 ^ 32) : req + 112 ≤ pagesFor req * 4096 ∧ pagesFor req * 4096 < 2 ^ 32 := by
  unfold pagesFor
  omega

theorem fresh_room {q : W64} (small : req + 4208 ≤ 2 ^ 32) :
    (fresh q req).room req = some [Block.make req (q.toNat + 40)] := by
  have bounds := pagesFor_bounds small
  have room : q.toNat + 40 + (req + 72) ≤ (fresh q req).stop := by
    simp only [fresh, Arena.stop, Arena.bytes]
    omega
  unfold Arena.room
  exact if_pos room

end Counting

section NewPage

variable {arenas before : List Arena} {a : Arena} {s : Liballoc} {req : Nat} {q : W64}

/-- The header that a grant of pages begins with. -/
def freshNode (q : W64) (req : Nat) : LinkNode W64 Counts := ⟨(fresh q req).node.2, 0#64, 0#64⟩

theorem fresh_place : (fresh q req).maj = q := by
  simp only [Arena.maj, fresh, BitVec.ofNat_toNat, BitVec.setWidth_eq]

theorem fresh_node_eq : (fresh q req).node = (q, (freshNode q req).data) := Prod.ext fresh_place rfl

theorem fresh_site : q ∈ sites (arenas ++ [fresh q req]) :=
  ⟨q.toNat, .major (a := fresh q req) List.mem_append_cons_self, (@fresh_place req q).symm⟩

theorem allocNewPage_eq (small : req + 4208 ≤ 2 ^ 32) : allocNewPage (BitVec.ofNat 32 (req + 32)) = (do
    let st := BitVec.ofNat 32 (pagesFor req)
    let maj ← liballocAlloc st
    if maj = 0#64 then return 0#64
    write64 maj Major.prev 0#64
    write64 maj Major.next 0#64
    write32 maj Major.pages st
    write32 maj Major.size (st * 0x1000#32)
    write32 maj Major.usage 40#32
    write64 maj Major.first 0#64
    let taken ← read32 maj Major.size
    modify fun s => { s with allocated := s.allocated + taken.setWidth 64 }
    return maj) := by
  have start : BitVec.ofNat 32 (req + 32) + 80#32 = BitVec.ofNat 32 (req + 112) := (BitVec.ofNat_add (req + 32) 80).symm
  unfold allocNewPage pagesFor
  simp only [start, pages_up (n := req + 112) (by omega), at_least (n := (req + 112 + 4095) / 4096) (by omega)]

theorem allocNewPage_refused (small : req + 4208 ≤ 2 ^ 32) (none : s.pages.headD 0#64 = 0#64) :
    allocNewPage (BitVec.ofNat 32 (req + 32)) s = some (0#64, s.refused req) := by
  have taken : liballocAlloc (BitVec.ofNat 32 (pagesFor req)) s = some (0#64, s.refused req) := by
    rw [liballocAlloc, none]
    rfl
  rw [allocNewPage_eq small]
  exact bind_eq taken

theorem allocNewPage_granted (small : req + 4208 ≤ 2 ^ 32) (head : s.pages.headD 0#64 = q) (proper : q ≠ 0#64)
    (laid : Laid (arenas ++ [fresh q req])) :
    Yields s (allocNewPage (BitVec.ofNat 32 (req + 32))) fun p s' => p = q ∧
      Track (sites (arenas ++ [fresh q req])) (s.granted req) s' (Function.update (records s.mem) q (some (freshNode q req))) := by
  have bounds := pagesFor_bounds small
  have site : q ∈ sites (arenas ++ [fresh q req]) := fresh_site
  have taken : liballocAlloc (BitVec.ofNat 32 (pagesFor req)) s = some (q, s.refused req) := by
    rw [liballocAlloc, head]
    rfl
  rw [allocNewPage_eq small]
  refine .after taken ?_
  refine .ite (fun zero => absurd zero proper) fun _ => ?_
  refine (Track.start laid.headers_apart).write site rfl .prev fun s1 track => ?_
  refine track.again site .next fun s2 track => ?_
  refine track.again site .one fun s3 track => ?_
  refine track.again site .two fun s4 track => ?_
  refine track.again site .three fun s5 track => ?_
  refine track.again site .owner fun s6 track => ?_
  refine track.read site (Function.update_self _ _ _) .two ?_
  have node : (freshNode q req).data.two = BitVec.ofNat 32 (pagesFor req) * 0x1000#32 := BitVec.ofNat_mul (pagesFor req) 4096
  refine .after rfl (.pure ⟨rfl, track.apart, ?_, track.frame, ?_⟩)
  · intro x listed
    refine (track.typed x listed).trans ?_
    simp only [Field.set]
    rw [← node]
    rfl
  · have bytes : (freshNode q req).data.two.setWidth 64 = BitVec.ofNat 64 (pagesFor req * 4096) := setWidth_ofNat bounds.2
    simp only [Field.get, Field.set]
    rw [← node, bytes, track.vars]
    rfl

theorem Track.mark {s0 : Liballoc} {h : LinkStore W64 Counts} {b : Block} (track : Track (sites arenas) s0 s h)
    (laid : Laid arenas) (member : a ∈ arenas) (inside : b ∈ a.blocks) : s.mem b.mark = s0.mem b.mark := by
  have mark := b.mark_bounds ((laid.each a member).sized b inside)
  exact track.frame _ (laid.not_header member inside mark.1 mark.2.1)

theorem Track.unbooked {s0 : Liballoc} {h : LinkStore W64 Counts} (track : Track (sites arenas) s0 s h) {x : W64}
    (other : ¬ Bookkeeping arenas x) : s.mem x = s0.mem x :=
  track.frame x fun y listed within => other (.inl ⟨y, listed, within⟩)

theorem Holds.last (holds : s.Holds (before ++ [a])) :
    records s.mem a.maj = some ⟨a.node.2, 0#64, lastAddress 0#64 (before.map Arena.node)⟩ := by
  have majors := holds.majors
  rw [List.map_append] at majors
  exact majors.last_node

theorem addPage_refused (small : req + 4208 ≤ 2 ^ 32) (none : s.pages.headD 0#64 = 0#64) (holds : s.Holds (before ++ [a]))
    (laid : Laid (before ++ [a])) :
    Yields s (addPage a.maj (size64 req)) fun p s' => p = 0#64 ∧ Edited (before ++ [a]) (s.refused req) s' := by
  have here : a ∈ before ++ [a] := List.mem_append_cons_self
  have site := (IsSite.major here).mem
  unfold addPage
  rw [setWidth_ofNat_low]
  refine .after (allocNewPage_refused small none) ?_
  refine (@Track.start _ (s.refused req) laid.headers_apart).write site holds.last .next fun s1 track => ?_
  refine track.read site (Function.update_self _ _ _) .next ?_
  refine .ite (fun proper => absurd rfl proper) fun _ => .pure ⟨rfl, ?_, fun x other => track.unbooked other, track.vars⟩
  -- the null pointer is stored over a null pointer
  have same : Function.update (records s.mem) a.maj
      (some (Field.next.set ⟨a.node.2, 0#64, lastAddress 0#64 (before.map Arena.node)⟩ 0#64)) = records s.mem := by
    rw [← Function.update_eq_self a.maj (records s.mem), holds.last, Function.update_idem]
    rfl
  refine holds.of_records (fun n listed => ?_) fun d member b inside => track.mark laid member inside
  exact (track.typed _ listed.mem).trans (congrFun same _)

theorem addPage_granted (small : req + 4208 ≤ 2 ^ 32) (head : s.pages.headD 0#64 = q) (proper : q ≠ 0#64)
    (holds : s.Holds (before ++ [a])) (laid : Laid (before ++ [a] ++ [fresh q req])) :
    Yields s (addPage a.maj (size64 req)) fun p s' =>
      p = q ∧ Edited (before ++ [a] ++ [fresh q req]) (s.granted req) s' := by
  have here : a ∈ before ++ [a] ++ [fresh q req] := List.mem_append_left _ List.mem_append_cons_self
  have site := (IsSite.major here).mem
  have site' : q ∈ sites (before ++ [a] ++ [fresh q req]) := fresh_site
  have away : ∀ n, IsSite (before ++ [a]) n → BitVec.ofNat 64 n ≠ q := by
    intro n listed
    rw [← @fresh_place req q]
    exact laid.other_ne (by rw [List.append_nil]; exact listed) (.inl rfl)
  have ne := away a.base (.major List.mem_append_cons_self)
  unfold addPage
  rw [setWidth_ofNat_low]
  refine (allocNewPage_granted small head proper laid).bind ?_
  rintro q s1 ⟨rfl, track⟩
  refine track.write site ((Function.update_of_ne ne _ _).trans holds.last) .next fun s2 track => ?_
  refine track.read site (Function.update_self _ _ _) .next ?_
  refine .ite (fun _ => ?_) fun zero => absurd proper zero
  refine track.write site' ((Function.update_of_ne ne.symm _ _).trans (Function.update_self _ _ _)) .prev fun s3 track => ?_
  simp only [Field.set] at track
  have others : ∀ n, IsSite (before ++ [a]) n → BitVec.ofNat 64 n ≠ a.maj →
      records s3.mem (BitVec.ofNat 64 n) = records s.mem (BitVec.ofNat 64 n) := by
    intro n listed other
    have listed' : IsSite (before ++ [a] ++ [fresh q req]) n := by
      obtain ⟨d, member, own⟩ := listed
      exact ⟨d, List.mem_append_left _ member, own⟩
    rw [track.typed _ listed'.mem, Function.update_of_ne (away n listed), Function.update_of_ne other,
      Function.update_of_ne (away n listed)]
  have majors := holds.majors
  rw [List.map_append] at majors
  have linked : Segment (records s3.mem) 0#64 s.memRoot ((before ++ [a]).map Arena.node) q := by
    rw [List.map_append]
    refine majors.relink_last ((track.typed _ site).trans ?_) fun x listed => ?_
    · exact (Function.update_of_ne ne _ _).trans (Function.update_self _ _ _)
    · obtain ⟨d, member, rfl⟩ := mem_majors listed
      rw [← List.append_cons] at laid
      exact others _ (.major (List.mem_append_left _ member))
        (laid.other_ne (.major (List.mem_append_left _ member)) (.inl rfl))
  refine .pure ⟨rfl, ⟨?_, fun d member => ?_, fun d member b inside => ?_⟩, fun x other => track.unbooked other, track.vars⟩
  · rw [List.map_append, List.map_singleton]
    apply linked.append
    have last : lastAddress 0#64 ((before ++ [a]).map Arena.node) = a.maj := by
      rw [List.map_append]
      exact lastAddress_snoc
    rw [last, fresh_node_eq]
    exact .single ((track.typed _ site').trans (Function.update_self _ _ _))
  · rcases List.mem_append.mp member with old | last
    · exact minors_congr (holds.minors d old) fun c inside => others _ (.minor old inside) (laid.minor_ne member inside here)
    · cases List.mem_singleton.mp last
      exact .nil
  · rcases List.mem_append.mp member with old | last
    · exact (holds.marks d old b inside).congr (track.mark laid member inside)
    · cases List.mem_singleton.mp last
      cases inside

end NewPage

end Neutrino.Alloc
