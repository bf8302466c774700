import Neutrino.Alloc.Unlink

namespace Neutrino.Alloc

open Library

variable {arenas before behind : List Arena} {a : Arena} {xs ys blocks : List Block} {b : Block} {s s' : Liballoc} {root : W64}
  {h : LinkStore W64 Counts}

theorem Laid.majors_list (laid : Laid arenas) (holds : Holds s.mem root arenas) :
    LinkedList (records s.mem) 0#64 root (arenas.map Arena.node) := by
  refine ⟨holds.majors, ?_, fun zero => ?_⟩
  · rw [List.map_map, List.nodup_iff_pairwise_ne, List.pairwise_map]
    refine laid.apart.imp_of_mem fun {a a'} member member' apart => ?_
    have room := (laid.each a member).base_lt
    have room' := (laid.each a' member').base_lt
    unfold Arena.Apart at apart
    exact laid.site_ne (.major member) (.major member') (by omega)
  · obtain ⟨a, member, same⟩ := mem_majors zero
    have bounds := laid.site_bounds (.major member)
    exact ofNat_ne_zero bounds.1 (by omega) same.symm

theorem refund_eq {usage size : Nat} (small : usage + (40 + size) < 2 ^ 32) :
    ((BitVec.ofNat 32 (usage + (40 + size))).setWidth 64 - ((BitVec.ofNat 32 size).setWidth 64 + 40#64)).setWidth 32 =
      BitVec.ofNat 32 usage := by
  rw [setWidth_ofNat small, setWidth_ofNat (by omega), ← BitVec.ofNat_add size 40, ofNat_sub_ofNat (by omega), setWidth_ofNat_low]
  congr 1
  omega

/-- The minor is out of the list of its major, which has the bytes back. -/
structure Released (before : List Arena) (a : Arena) (behind : List Arena) (blocks : List Block) (s s' : Liballoc)
    (h : LinkStore W64 Counts) : Prop where
  track : Track (sites (before ++ a :: behind)) s s' h
  minors : Segment h 0#64 (a.withBlocks blocks).first (blocks.map (Block.node a)) 0#64
  major : ∀ next prev, records s.mem a.maj = some ⟨a.node.2, next, prev⟩ →
    h a.maj = some ⟨(a.withBlocks blocks).node.2, next, prev⟩
  others : ∀ n, IsSite (before ++ behind) n → h (BitVec.ofNat 64 n) = records s.mem (BitVec.ofNat 64 n)

section Release

variable (laid : Laid (before ++ a :: behind)) (split : a.blocks = xs ++ b :: ys)
include laid split

theorem Laid.dead_list (holds : s.Holds (before ++ a :: behind)) {data : Counts} {next prev : W64}
    (node : records s.mem b.min = some ⟨(b.node a).2, next, prev⟩) (dead : h b.min = some ⟨data, next, prev⟩)
    (same : ∀ x, x ≠ a.maj → x ≠ b.min → h x = records s.mem x) :
    LinkedList h 0#64 a.first (xs.map (Block.node a) ++ (b.min, data) :: ys.map (Block.node a)) := by
  have here : a ∈ before ++ a :: behind := List.mem_append_cons_self
  have list := laid.minors_list holds here
  rw [split, List.map_append, List.map_cons] at list
  obtain ⟨-, right, apart, -⟩ := list.parts
  have distinct := list.distinct
  have proper := list.proper
  rw [List.map_cons, List.nodup_cons] at right
  rw [List.map_append, List.map_cons] at distinct proper
  have major : ∀ c ∈ xs ++ ys, c.min ≠ a.maj := by
    intro c member
    have inside : c ∈ a.blocks := by
      rw [split]
      exact mem_middle.mpr (.inr member)
    exact laid.minor_ne here inside here
  refine ⟨list.segment.redata (fun next' node' => ?_) (fun x listed => ?_) fun x listed => ?_, ?_, ?_⟩
  · cases node.symm.trans node'
    exact dead
  · obtain ⟨c, member, rfl⟩ := mem_minors listed
    exact same _ (major c (List.mem_append_left _ member)) (apart _ listed _ List.mem_cons_self)
  · obtain ⟨c, member, rfl⟩ := mem_minors listed
    refine same _ (major c (List.mem_append_right _ member)) fun equal => right.1 ?_
    rw [equal] at listed
    exact listed
  · rw [List.map_append, List.map_cons]
    exact distinct
  · rw [List.map_append, List.map_cons]
    exact proper

theorem release_yields (holds : s.Holds (before ++ a :: behind)) :
    Yields s (release a.maj b.min (BitVec.ofNat 32 b.size)) fun _ s' => ∃ h, Released before a behind (xs ++ ys) s s' h ∧
      ∃ n, h b.min = some n ∧ n.data.one = allocMarkerDead := by
  have here : a ∈ before ++ a :: behind := List.mem_append_cons_self
  have good := laid.each a here
  have inside : ∀ c ∈ xs ++ b :: ys, c ∈ a.blocks := fun c member => by rw [split]; exact member
  have block : b ∈ a.blocks := inside b List.mem_append_cons_self
  have site := (IsSite.major here).mem
  have site' := (IsSite.minor here block).mem
  have ne : b.min ≠ a.maj := laid.minor_ne here block here
  have bytes := good.usage_le
  have small := good.small
  have usage : a.usage = (a.withBlocks (xs ++ ys)).usage + (40 + b.size) := by
    rw [← Arena.withBlocks_usage, ← split]
    rfl
  obtain ⟨next, prev, node⟩ := holds.major
  have list := laid.minors_list holds here
  rw [split, List.map_append, List.map_cons] at list
  obtain ⟨next', prev', node'⟩ : ∃ next' prev', records s.mem b.min = some ⟨(b.node a).2, next', prev'⟩ :=
    ⟨_, _, list.node⟩
  have start : Track (sites (before ++ a :: behind)) s s (records s.mem) := .start laid.headers_apart
  unfold release
  refine start.read site node .three (start.write site node .three fun s1 track => ?_)
  refine track.write site' ((Function.update_of_ne ne _ _).trans node') .one fun s2 track => ?_
  obtain ⟨h, track, dead, charged, same⟩ : ∃ h, Track (sites (before ++ a :: behind)) s s2 h ∧
      h b.min = some ⟨{ (b.node a).2 with one := allocMarkerDead }, next', prev'⟩ ∧
      h a.maj = some ⟨{ a.node.2 with three := BitVec.ofNat 32 (a.withBlocks (xs ++ ys)).usage }, next, prev⟩ ∧
      ∀ x, x ≠ a.maj → x ≠ b.min → h x = records s.mem x := by
    refine ⟨_, track, Function.update_self _ _ _, ?_, fun x other other' => ?_⟩
    · rw [Function.update_of_ne ne.symm, Function.update_self]
      simp only [Field.set, Field.get, Arena.node]
      rw [usage, refund_eq (by omega)]
    · rw [Function.update_of_ne other', Function.update_of_ne other]
  have deads := laid.dead_list split holds node' dead same
  -- the minors beside the one that is freed
  have behind' : next' ≠ 0#64 → ∃ c ∈ a.blocks, next' = c.min := by
    intro proper
    obtain ⟨c, member, equal⟩ := mem_minors (deads.next_mem dead proper).1
    exact ⟨c, inside c (List.mem_append_right _ (List.mem_cons_of_mem _ member)), equal⟩
  have before' : prev' ≠ 0#64 → ∃ c ∈ a.blocks, prev' = c.min := by
    intro proper
    obtain ⟨c, member, equal⟩ := mem_minors (deads.prev_mem dead proper).1
    exact ⟨c, inside c (List.mem_append_left _ member), equal⟩
  have near : Neighbours (sites (before ++ a :: behind)) b.min
      ⟨{ (b.node a).2 with one := allocMarkerDead }, next', prev'⟩ := by
    refine ⟨fun proper => ⟨?_, (deads.next_mem dead proper).2.1⟩, fun proper => ⟨?_, (deads.prev_mem dead proper).2⟩,
      fun proper => (deads.next_mem dead proper).2.2⟩
    · obtain ⟨c, member, rfl⟩ := behind' proper
      exact (IsSite.minor here member).mem
    · obtain ⟨c, member, rfl⟩ := before' proper
      exact (IsSite.minor here member).mem
  refine (unlinkMinor_yields track site' dead near site charged ne (fun proper => ?_) fun proper => ?_).mono ?_
  · obtain ⟨c, member, rfl⟩ := behind' proper
    exact (laid.minor_ne here member here).symm
  · obtain ⟨c, member, rfl⟩ := before' proper
    exact (laid.minor_ne here member here).symm
  rintro _ s' ⟨h', track', spliced, charged', dead'⟩
  have outside : a.maj ∉ (xs.map (Block.node a) ++ ys.map (Block.node a)).map Prod.fst := by
    rw [← List.map_append]
    intro listed
    obtain ⟨c, member, equal⟩ := mem_minors listed
    exact laid.minor_ne here (inside c (mem_middle.mpr (.inr member))) here equal.symm
  have minors := deads.splice outside dead spliced
  rw [← List.map_append] at minors
  have first := Arena.first_eq minors
  rw [first] at minors
  refine ⟨h', ⟨track', minors, fun next'' prev'' node'' => ?_, fun n foreign => ?_⟩, _, dead', rfl⟩
  · cases node.symm.trans node''
    refine charged'.trans ?_
    have owner : (if prev' = 0#64 then next' else a.first) = (a.withBlocks (xs ++ ys)).first :=
      (if_congr (deads.prev_null dead) rfl rfl).trans first
    simp only [Arena.node] at owner ⊢
    rw [owner]
    rfl
  · have other : ∀ c ∈ a.blocks, BitVec.ofNat 64 n ≠ c.min := fun c member => laid.other_ne foreign (.inr ⟨c, member, rfl⟩)
    have other' : BitVec.ofNat 64 n ≠ a.maj := laid.other_ne foreign (.inl rfl)
    refine (spliced.others _ other' (fun proper => ?_) fun proper => ?_).trans (same _ other' (other b block))
    · obtain ⟨c, member, rfl⟩ := behind' proper
      exact other c member
    · obtain ⟨c, member, rfl⟩ := before' proper
      exact other c member

end Release

/-- The variables once the bytes of a block are no longer in use. -/
def Liballoc.credited (s : Liballoc) (b : Block) : Liballoc := { s with inuse := s.inuse - BitVec.ofNat 64 b.size }

theorem keepBest_yields {maj : W64} : Yields s (keepBest maj) fun _ s' => s' = s ∨ s' = s.withBet maj := by
  unfold keepBest
  refine .get (.ite (fun _ => ?_) fun _ => .pure (.inl rfl))
  refine .after rfl (.after rfl (.after rfl (.after rfl ?_)))
  exact .ite (fun _ => .of_eq rfl (.inr rfl)) fun _ => .pure (.inl rfl)

theorem Released.holds (released : Released before a behind blocks s s' h) (laid : Laid (before ++ a :: behind))
    (holds : Holds s.mem root (before ++ a :: behind)) (fewer : ∀ c ∈ blocks, c ∈ a.blocks) :
    Holds s'.mem root (before ++ a.withBlocks blocks :: behind) := by
  have here : a ∈ before ++ a :: behind := List.mem_append_cons_self
  have track := released.track
  apply holds.replace
  · exact fun n site => (track.typed _ site.other.mem).trans (released.others n site)
  · exact fun next prev node => (track.typed _ (IsSite.major here).mem).trans (released.major _ _ node)
  · exact minors_congr released.minors fun c inside => track.typed _ (IsSite.minor here (fewer c inside)).mem
  · exact fun c inside => (holds.marks a here c (fewer c inside)).congr (track.mark laid here (fewer c inside))
  · exact fun d other c inside => track.mark laid (mem_middle.mpr (.inr other)) inside

theorem dropMajor_holds (laid : Laid (before ++ a :: behind)) (holds : s.Holds (before ++ a :: behind)) :
    Yields s (dropMajor a.maj) fun _ s' => ∃ n, n.data = a.node.2 ∧ s' = { s.dropped a.maj n with mem := s'.mem } ∧
      s'.Holds (before ++ behind) ∧ ∀ x, ¬ Bookkeeping (before ++ a :: behind) x → s'.mem x = s.mem x := by
  have here : a ∈ before ++ a :: behind := List.mem_append_cons_self
  have old : ∀ d ∈ before ++ behind, d ∈ before ++ a :: behind := fun d member => mem_middle.mpr (.inr member)
  have list := laid.majors_list holds
  rw [List.map_append, List.map_cons] at list
  obtain ⟨n, node, data⟩ : ∃ n, records s.mem a.maj = some n ∧ n.data = a.node.2 := ⟨_, list.node, rfl⟩
  -- the majors beside the one that is dropped
  have behind' : n.next ≠ 0#64 → ∃ d ∈ before ++ behind, n.next = d.maj := by
    intro proper
    obtain ⟨d, member, equal⟩ := mem_majors (list.next_mem node proper).1
    exact ⟨d, List.mem_append_right _ member, equal⟩
  have before' : n.prev ≠ 0#64 → ∃ d ∈ before ++ behind, n.prev = d.maj := by
    intro proper
    obtain ⟨d, member, equal⟩ := mem_majors (list.prev_mem node proper).1
    exact ⟨d, List.mem_append_left _ member, equal⟩
  have near : Neighbours (sites (before ++ a :: behind)) a.maj n := by
    refine ⟨fun proper => ⟨?_, (list.next_mem node proper).2.1⟩, fun proper => ⟨?_, (list.prev_mem node proper).2⟩,
      fun proper => (list.next_mem node proper).2.2⟩
    · obtain ⟨d, member, equal⟩ := behind' proper
      rw [equal]
      exact (IsSite.major (old d member)).mem
    · obtain ⟨d, member, equal⟩ := before' proper
      rw [equal]
      exact (IsSite.major (old d member)).mem
  refine (dropMajor_yields (Track.start laid.headers_apart) (IsSite.major here).mem node near).mono ?_
  rintro _ s' ⟨h, track, spliced⟩
  have outside : a.maj ∉ (before.map Arena.node ++ behind.map Arena.node).map Prod.fst := by
    rw [← List.map_append]
    intro listed
    obtain ⟨d, member, equal⟩ := mem_majors listed
    exact laid.other_ne (.major member) (.inl rfl) equal.symm
  refine ⟨n, data, track.vars, ⟨?_, fun d member => ?_, fun d member c inside => ?_⟩, fun x other => track.unbooked other⟩
  · have majors := list.splice outside node spliced
    have root : s'.memRoot = if s.memRoot = a.maj then n.next else s.memRoot := by rw [track.vars]; rfl
    rw [← List.map_append, ← root] at majors
    exact majors_congr majors fun d member => track.typed _ (IsSite.major (old d member)).mem
  · refine minors_congr (holds.minors d (old d member)) fun c inside => ?_
    have ne : ∀ e ∈ before ++ a :: behind, c.min ≠ e.maj := fun e member' => laid.minor_ne (old d member) inside member'
    refine (track.typed _ (IsSite.minor (old d member) inside).mem).trans
      (spliced.others _ (ne a here) (fun proper => ?_) fun proper => ?_)
    · obtain ⟨e, member', equal⟩ := behind' proper
      rw [equal]
      exact ne e (old e member')
    · obtain ⟨e, member', equal⟩ := before' proper
      rw [equal]
      exact ne e (old e member')
  · exact (holds.marks d (old d member) c inside).congr (track.mark laid (old d member) inside)

def Liballoc.given (s : Liballoc) (a : Arena) : Liballoc :=
  { s with
    returned := s.returned ++ [(a.maj, BitVec.ofNat 32 a.pages)]
    allocated := s.allocated - BitVec.ofNat 64 a.bytes }

/-- What a call of `free` comes to: the variables as they are left, and the majors. -/
inductive Frees (b : Block) (s : Liballoc) : List Arena → Liballoc → List Arena → Prop
  | kept {before behind : List Arena} {a : Arena} {xs ys : List Block} (split : a.blocks = xs ++ b :: ys) (more : xs ++ ys ≠ []) :
      Frees b s (before ++ a :: behind) (s.credited b) (before ++ a.withBlocks (xs ++ ys) :: behind)
  | dropped {before behind : List Arena} {a : Arena} (only : a.blocks = [b]) :
      Frees b s (before ++ a :: behind) ((s.credited b).given a) (before ++ behind)

/-- The header of a block that has been freed, as it stays until the bytes are used again. -/
structure Block.Dead (b : Block) (mem : ByteMemory) : Prop where
  magic : fetch 32 mem (b.min + BitVec.ofNat 64 Minor.magic) = allocMarkerDead
  mark : b.Marked mem

/-- What a call of `free` has done. -/
structure Freed (b : Block) (s : Liballoc) (arenas : List Arena) (s' : Liballoc) (arenas' : List Arena) : Prop where
  inv : Inv s' arenas'
  frees : ∃ s1, Frees b s arenas s1 arenas' ∧ s'.pages = s1.pages ∧ s'.asked = s1.asked ∧ s'.returned = s1.returned
  frame : ∀ x, ¬ Bookkeeping arenas x → s'.mem x = s.mem x
  dead : s'.returned = s.returned → b.Dead s'.mem

section Outcome

variable {arenas' : List Arena} {s1 : Liballoc} (frees : Frees b s arenas s1 arenas')
include frees

theorem Frees.good (good : Good arenas) : Good arenas' := by
  cases frees with
  | @kept before behind a xs ys split more =>
    have here := good.each a List.mem_append_cons_self
    have ordered := here.ordered
    rw [split] at ordered
    refine good.insert ordered.remove (fun e member => .inl ?_) more
    rw [split]
    exact mem_middle.mpr (.inr member)
  | @dropped before behind a only =>
    have fewer : ∀ d ∈ before ++ behind, d ∈ before ++ a :: behind := fun d member => mem_middle.mpr (.inr member)
    refine ⟨⟨fun d member => good.each d (fewer d member), ?_⟩, fun d member => good.used d (fewer d member)⟩
    exact (List.pairwise_cons.mp ((List.pairwise_middle Arena.Apart.symm).mp good.apart)).2

theorem Frees.allocated (total : s.allocated = BitVec.ofNat 64 (arenas.map Arena.bytes).sum) :
    s1.allocated = BitVec.ofNat 64 (arenas'.map Arena.bytes).sum := by
  cases frees with
  | kept split more =>
    rw [List.map_append, List.map_cons] at total ⊢
    exact total
  | @dropped before behind a only =>
    have left : ((s.credited b).given a).allocated = s.allocated - BitVec.ofNat 64 a.bytes := rfl
    rw [left, total, List.map_append, List.map_cons, List.sum_append, List.sum_cons, ofNat_sub_ofNat (by omega), List.map_append,
      List.sum_append]
    congr 1
    omega

theorem Frees.inuse (total : s.inuse = BitVec.ofNat 64 ((live arenas).map Block.size).sum) :
    s1.inuse = BitVec.ofNat 64 ((live arenas').map Block.size).sum := by
  cases frees with
  | @kept before behind a xs ys split more =>
    have left : (s.credited b).inuse = s.inuse - BitVec.ofNat 64 b.size := rfl
    rw [left, total]
    simp only [live, List.flatMap_append, List.flatMap_cons, List.map_append, List.map_cons, List.sum_append, List.sum_cons,
      Arena.withBlocks_blocks, split]
    rw [ofNat_sub_ofNat (by omega)]
    congr 1
    omega
  | @dropped before behind a only =>
    have left : ((s.credited b).given a).inuse = s.inuse - BitVec.ofNat 64 b.size := rfl
    rw [left, total]
    simp only [live, List.flatMap_append, List.flatMap_cons, List.map_append, List.map_cons, List.map_nil, List.sum_append,
      List.sum_cons, List.sum_nil, only]
    rw [ofNat_sub_ofNat (by omega)]
    congr 1
    omega

theorem Frees.freed {s' : Liballoc} {bet : W64} (inv : Inv s arenas) (holds : s'.Holds arenas')
    (held : Bet arenas' bet) (vars : s' = { s1 with mem := s'.mem, memRoot := s'.memRoot, bestBet := bet, locked := false })
    (frame : ∀ x, ¬ Bookkeeping arenas x → s'.mem x = s.mem x) (dead : s'.returned = s.returned → b.Dead s'.mem) :
    Freed b s arenas s' arenas' := by
  refine ⟨⟨frees.good inv.good, holds, ?_, ?_, ?_, ?_⟩, ⟨s1, frees, ?_, ?_, ?_⟩, frame, dead⟩
  · rw [vars]
    exact held
  · rw [vars]
  · rw [vars]
    exact frees.allocated inv.allocated
  · rw [vars]
    exact frees.inuse inv.inuse
  · rw [vars]
  · rw [vars]
  · rw [vars]

end Outcome

theorem Bet.kept {bet : W64} (held : Bet (before ++ a :: behind) s.bestBet) (either : bet = s.bestBet ∨ bet = a.maj) :
    Bet (before ++ a.withBlocks blocks :: behind) bet := by
  refine (held.turn either).mono fun d member => ?_
  rcases mem_middle.mp member with rfl | other
  · exact ⟨_, List.mem_append_cons_self, rfl⟩
  · exact ⟨d, mem_middle.mpr (.inr other), rfl⟩

theorem Bet.dropped {bet : W64} (held : Bet (before ++ a :: behind) bet) :
    Bet (before ++ behind) (if bet = a.maj then 0#64 else bet) := by
  by_cases best : bet = a.maj
  · rw [if_pos best]
    exact .inl rfl
  · rw [if_neg best]
    rcases held with zero | ⟨d, member, same⟩
    · exact .inl zero
    · rcases mem_middle.mp member with rfl | other
      · exact absurd same best
      · exact .inr ⟨d, other, same⟩

theorem Bookkeeping.fewer {x : W64} (fewer : ∀ c ∈ blocks, c ∈ a.blocks)
    (booked : Bookkeeping (before ++ a.withBlocks blocks :: behind) x) : Bookkeeping (before ++ a :: behind) x := by
  refine booked.mono fun d member => ?_
  rcases mem_middle.mp member with rfl | other
  · exact ⟨a, List.mem_append_cons_self, rfl, fewer⟩
  · exact ⟨d, mem_middle.mpr (.inr other), rfl, fun _ => id⟩

theorem settle_dropped {s1 : Liballoc} (inv : Inv s (before ++ a :: behind)) (only : a.blocks = [b])
    (released : Released before a behind [] (s.taken.credited b) s1 h) :
    Yields s1 (do dropMajor (a.maj); liballocUnlock) fun _ s' =>
      ∃ arenas', Freed b s (before ++ a :: behind) s' arenas' := by
  have laid := inv.good.toLaid
  have good := laid.each a List.mem_append_cons_self
  have fewer : ∀ c ∈ ([] : List Block), c ∈ a.blocks := fun c member => by cases member
  have laid' : Laid (before ++ a.withBlocks [] :: behind) := laid.insert good.base_lt fun c member => by cases member
  have root : s1.memRoot = s.memRoot := by rw [released.track.vars]; rfl
  have bet : s1.bestBet = s.bestBet := by rw [released.track.vars]; rfl
  have holds : s1.Holds (before ++ a.withBlocks [] :: behind) := by
    rw [Liballoc.Holds, root]
    exact released.holds laid inv.holds fewer
  refine (dropMajor_holds laid' holds).bind ?_
  rintro _ s2 ⟨n, data, vars, holds', frame⟩
  have given : s2.returned = s.returned ++ [(a.maj, n.data.one)] := by
    rw [vars]
    simp only [Liballoc.dropped]
    rw [released.track.vars]
    rfl
  refine .of_eq rfl ⟨before ++ behind, (Frees.dropped only).freed inv holds' inv.bet.dropped ?_ (fun x other => ?_) ?_⟩
  · have one : n.data.one = BitVec.ofNat 32 a.pages := by rw [data]; rfl
    have two : n.data.two.setWidth 64 = BitVec.ofNat 64 a.bytes := by rw [data]; exact setWidth_ofNat good.small
    simp only
    rw [vars]
    simp only [Liballoc.dropped, one, two, bet]
    rw [released.track.vars]
    rfl
  · exact (frame x fun booked => other (booked.fewer fewer)).trans (released.track.unbooked other)
  · intro same
    have longer := congrArg List.length (given.symm.trans same)
    rw [List.length_append, List.length_singleton] at longer
    omega

theorem settle_kept {s1 : Liballoc} (inv : Inv s (before ++ a :: behind)) (split : a.blocks = xs ++ b :: ys)
    (more : xs ++ ys ≠ []) (released : Released before a behind (xs ++ ys) (s.taken.credited b) s1 h)
    {n : LinkNode W64 Counts} (node : h (b.min) = some n) (marked : n.data.one = allocMarkerDead) :
    Yields s1 (do keepBest (a.maj); liballocUnlock) fun _ s' =>
      ∃ arenas', Freed b s (before ++ a :: behind) s' arenas' := by
  have laid := inv.good.toLaid
  have fewer : ∀ c ∈ xs ++ ys, c ∈ a.blocks := by
    intro c member
    rw [split]
    exact mem_middle.mpr (.inr member)
  have root : s1.memRoot = s.memRoot := by rw [released.track.vars]; rfl
  have holds : s1.Holds (before ++ a.withBlocks (xs ++ ys) :: behind) := by
    rw [Liballoc.Holds, root]
    exact released.holds laid inv.holds fewer
  have here : a ∈ before ++ a :: behind := List.mem_append_right _ List.mem_cons_self
  have inside : b ∈ a.blocks := by
    rw [split]
    exact List.mem_append_right _ List.mem_cons_self
  have dead : b.Dead s1.mem := by
    constructor
    · have typed := (released.track.typed _ (IsSite.minor here inside).mem).trans node
      exact (fetch_records .one typed).trans marked
    · exact (inv.holds.marks a here b inside).congr (released.track.mark laid here inside)
  refine keepBest_yields.bind ?_
  rintro _ s2 (rfl | rfl)
  · refine .of_eq rfl ⟨_, (Frees.kept split more).freed inv holds (inv.bet.kept (.inl rfl)) ?_ (fun x other => ?_)
      fun _ => dead⟩
    · simp only
      rw [released.track.vars]
      rfl
    · exact released.track.unbooked other
  · refine .of_eq rfl ⟨_, (Frees.kept split more).freed inv holds (inv.bet.kept (.inr rfl)) ?_ (fun x other => ?_)
      fun _ => dead⟩
    · simp only
      rw [released.track.vars]
      rfl
    · exact released.track.unbooked other

theorem free_yields (inv : Inv s arenas) (member : b ∈ live arenas) :
    Yields s (free (b.ptr)) fun _ s' => ∃ arenas', Freed b s arenas s' arenas' := by
  obtain ⟨a, listed, inside⟩ := List.mem_flatMap.mp member
  obtain ⟨before, behind, rfl⟩ := List.append_of_mem listed
  obtain ⟨xs, ys, split⟩ := List.append_of_mem inside
  have laid := inv.good.toLaid
  have good := laid.each a listed
  have fits := good.fits
  have block := good.block inside
  have bounds := b.pointer_bounds
  have mark := b.mark_bounds (good.sized b inside)
  have size := good.size_small inside
  have list := laid.minors_list inv.holds listed
  rw [split, List.map_append, List.map_cons] at list
  have back : BitVec.ofNat 64 (b.addr + 40) - 40#64 = b.min := ofNat_sub_ofNat (by omega)
  have site := (IsSite.minor listed inside).mem
  have track := @Track.start (sites (before ++ a :: behind)) s.taken laid.headers_apart
  obtain ⟨next, prev, node⟩ := inv.holds.major
  unfold free
  refine .ite (fun zero => absurd zero (ofNat_ne_zero (by omega) (by omega))) fun _ => ?_
  refine .after (unalign_eq (by omega) (inv.holds.marks a listed b inside)) ?_
  refine .after (lock_eq inv.unlocked) ?_
  simp only [back]
  refine track.read site list.node .one ?_
  refine .ite (fun other => absurd rfl other) fun _ => ?_
  refine track.read site list.node .owner ?_
  refine track.read site list.node .two ?_
  have paid : (modify fun s => { s with inuse := s.inuse - (BitVec.ofNat 32 b.size).setWidth 64 } : AllocM PUnit) s.taken =
      some (⟨⟩, s.taken.credited b) := by
    rw [setWidth_ofNat size]
    rfl
  refine .after paid ?_
  refine (@release_yields before behind a xs ys b (s.taken.credited b) laid split inv.holds).bind ?_
  rintro _ s1 ⟨h, released, n, dead, marked⟩
  refine released.track.read (IsSite.major listed).mem (released.major _ _ node) .owner ?_
  by_cases none : xs ++ ys = []
  · obtain ⟨rfl, rfl⟩ := List.append_eq_nil_iff.mp none
    refine .ite (fun _ => ?_) fun other => absurd rfl other
    exact settle_dropped inv split released
  · have proper : (a.withBlocks (xs ++ ys)).first ≠ 0#64 := by
      obtain ⟨c, rest, first⟩ := List.exists_cons_of_ne_nil none
      have old : c ∈ a.blocks := by
        rw [split]
        refine mem_middle.mpr (.inr ?_)
        rw [first]
        exact List.mem_cons_self
      rw [first]
      exact ofNat_ne_zero (laid.site_bounds (.minor listed old)).1 (by have := laid.site_bounds (.minor listed old); omega)
    refine .ite (fun zero => absurd zero proper) fun _ => ?_
    exact settle_kept inv split none released dead marked

theorem free_dead (unlocked : s.locked = false) (dead : b.Dead s.mem) (pos : 0 < b.pointer) (small : b.pointer < 2 ^ 64) :
    free (b.ptr) s = some ((), s) := by
  have back : BitVec.ofNat 64 (b.addr + 40) - 40#64 = b.min := ofNat_sub_ofNat (by omega)
  have magic : read32 (b.min) Minor.magic s.taken = some (allocMarkerDead, s.taken) :=
    congrArg (fun v => some (v, s.taken)) dead.magic
  have released : { s.taken with locked := false } = s := by
    rw [← unlocked]
    rfl
  rw [free, if_neg (ofNat_ne_zero pos small), bind_eq (unalign_eq small dead.mark), bind_eq (lock_eq unlocked)]
  simp only [back]
  rw [bind_eq magic, if_pos (by decide)]
  exact congrArg (fun s => some ((), s)) released

end Neutrino.Alloc
