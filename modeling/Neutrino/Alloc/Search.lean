import Neutrino.Alloc.Pages

namespace Neutrino.Alloc

open Library

/-- The best bet is one of the majors, or there is none. -/
def Bet (arenas : List Arena) (bet : W64) : Prop := bet = 0#64 ∨ ∃ a ∈ arenas, bet = a.maj

def Liballoc.withBet (s : Liballoc) (bet : W64) : Liballoc := { s with bestBet := bet }

/-- What a request comes to: the variables as they are left, and the majors. -/
inductive Serves (req : Nat) (s : Liballoc) : List Arena → W64 → Liballoc → List Arena → Prop
  | placed {before behind : List Arena} {a : Arena} {xs ys : List Block} {b : Block}
      (room : a.room req = some (xs ++ b :: ys)) (split : a.blocks = xs ++ ys) (sized : b.req = req ∧ b.size = req + 32) :
      Serves req s (before ++ a :: behind) b.ptr (s.charged b) (grown before a behind xs ys b)
  | grown {arenas : List Arena} {q : W64} (full : ∀ a ∈ arenas, a.room req = none) (head : s.pages.headD 0#64 = q)
      (proper : q ≠ 0#64) :
      Serves req s arenas (Block.make req (q.toNat + 40)).ptr ((s.granted req).charged (Block.make req (q.toNat + 40)))
        (arenas ++ [(fresh q req).withBlocks [Block.make req (q.toNat + 40)]])
  | refused {arenas : List Arena} (full : ∀ a ∈ arenas, a.room req = none) (head : s.pages.headD 0#64 = 0#64) :
      Serves req s arenas 0#64 { s.refused req with locked := false } arenas

/-- The request has been served, with some major as the best bet. -/
def Served (arenas : List Arena) (req : Nat) (s : Liballoc) (p : W64) (s' : Liballoc) : Prop :=
  ∃ s1 arenas' bet, Serves req s arenas p s1 arenas' ∧ Bet arenas' bet ∧ Edited arenas' (s1.withBet bet) s'

/-- The rest of an iteration, once it is known whether the major has enough bytes. -/
def resume (size : W64) (reqSize : W32) (fuel : Nat) (bestSize : W64) (startedBet : Bool) : Turn → AllocM W64
  | .stop => giveUp
  | .on maj startedBet => mallocLoop size reqSize fuel maj startedBet bestSize
  | .here maj => do
    match ← placeIn fuel maj size reqSize with
    | some p => return p
    | none =>
      match ← nextMajor maj size startedBet with
      | none => giveUp
      | some (maj, startedBet) => mallocLoop size reqSize fuel maj startedBet bestSize

abbrev Arena.spare (a : Arena) : W64 := BitVec.ofNat 64 (a.bytes - a.usage)

/-- An iteration at a major, behind the look at its free bytes. -/
def turn (req fuel : Nat) (a : Arena) (started : Bool) (best : W64) : AllocM W64 :=
  checkSpace a.maj (size64 req) started a.spare >>= resume (size64 req) (req32 req) fuel best started

variable {arenas arenas' before behind : List Arena} {a c : Arena} {s s1 s' : Liballoc} {req fuel : Nat} {p q best bet : W64}
  {started : Bool}

theorem Bet.mono (held : Bet arenas bet) (more : ∀ a ∈ arenas, ∃ d ∈ arenas', d.base = a.base) : Bet arenas' bet := by
  rcases held with zero | ⟨a, member, same⟩
  · exact .inl zero
  · obtain ⟨d, listed, base⟩ := more a member
    exact .inr ⟨d, listed, by rw [same, Arena.maj, Arena.maj, base]⟩

theorem spare_eq (holds : s.Holds (before ++ a :: behind)) (good : a.Good) : spare a.maj s = some (a.spare, s) := by
  have usage := good.usage_le
  have small := good.small
  obtain ⟨next, prev, node⟩ := holds.major
  have value : (BitVec.ofNat 32 a.bytes - BitVec.ofNat 32 a.usage).setWidth 64 = a.spare := by
    apply BitVec.eq_of_toNat_eq
    rw [BitVec.toNat_setWidth, BitVec.toNat_sub, BitVec.toNat_ofNat, BitVec.toNat_ofNat, BitVec.toNat_ofNat]
    omega
  unfold spare
  refine (bind_eq (read_eq node .two)).trans ?_
  refine (bind_eq (read_eq node .three)).trans ?_
  rw [← value]
  rfl

theorem short_iff (good : a.Good) (small : req + 72 < 2 ^ 32) :
    a.spare < size64 req + 40#64 ↔ a.bytes - a.usage < req + 72 := by
  have bytes := good.small
  rw [← BitVec.ofNat_add (req + 32) 40, ofNat_lt (by omega) (by omega)]

theorem Arena.Good.full (good : a.Good) (short : a.bytes - a.usage < req + 72) : a.room req = none := by
  apply FirstFit.place_none good.ordered
  unfold Arena.usage at short
  unfold Arena.stop
  omega

theorem mallocLoop_turn (holds : s.Holds (before ++ a :: behind)) (good : a.Good) :
    ∃ bet best', (bet = s.bestBet ∨ bet = a.maj) ∧
      mallocLoop (size64 req) (req32 req) (fuel + 1) a.maj started best s = turn req fuel a started best' (s.withBet bet) := by
  have fits := good.fits
  have room := good.base_lt
  have unfolded : mallocLoop (size64 req) (req32 req) (fuel + 1) a.maj started best = (do
      let diff ← spare a.maj
      if best < diff then modify fun s => { s with bestBet := a.maj }
      checkSpace a.maj (size64 req) started diff >>=
        resume (size64 req) (req32 req) fuel (if best < diff then diff else best) started) := by
    rw [mallocLoop, if_neg (ofNat_ne_zero good.pos (by omega))]
    rfl
  rw [unfolded, bind_eq (spare_eq holds good)]
  by_cases more : best < a.spare
  · exact ⟨a.maj, _, .inr rfl, by rw [if_pos more]; rfl⟩
  · exact ⟨s.bestBet, _, .inl rfl, by rw [if_neg more]; rfl⟩

section Turns

variable (laid : Laid (before ++ a :: behind)) (small : req + 72 < 2 ^ 32)
include laid small

theorem checkSpace_wide (wide : ¬ a.bytes - a.usage < req + 72) :
    checkSpace a.maj (size64 req) started a.spare s = some (.here a.maj, s) := by
  rw [checkSpace, if_neg (mt (short_iff (laid.each a List.mem_append_cons_self) small).mp wide)]
  rfl

theorem checkSpace_here {blocks : List Block} (room : a.room req = some blocks) :
    checkSpace a.maj (size64 req) started a.spare s = some (.here a.maj, s) := by
  apply checkSpace_wide laid small
  intro short
  rw [(laid.each a List.mem_append_cons_self).full short] at room
  cases room

variable (holds : s.Holds (before ++ a :: behind))
include holds

theorem turn_placed {blocks : List Block} (room : a.room req = some blocks) (used : a.blocks ≠ [])
    (enough : a.blocks.length + 1 ≤ fuel) :
    Yields s (turn req fuel a started best) fun p s' =>
      ∃ s1 arenas', Serves req s (before ++ a :: behind) p s1 arenas' ∧ Edited arenas' s1 s' := by
  refine .after (checkSpace_here laid small room) ?_
  refine (placeIn_yields holds laid small (fun empty => absurd empty used) enough).bind ?_
  rw [room]
  rintro p s' ⟨xs, ys, b, split, rfl, req, size, _, rfl, rfl, edited⟩
  exact .pure ⟨_, _, .placed room split ⟨req, size⟩, edited⟩

variable (full : a.room req = none) (used : a.blocks ≠ []) (enough : a.blocks.length + 1 ≤ fuel)
include full used enough

theorem placeIn_none : placeIn fuel a.maj (size64 req) (req32 req) s = some (none, s) := by
  obtain ⟨p, s', taken, outcome⟩ := placeIn_yields holds laid small (fun empty => absurd empty used) enough
  rw [full] at outcome
  rw [taken, outcome.1, outcome.2]

theorem turn_on {n m : W64} {again : Bool} (next : read64 a.maj Major.next s = some (n, s))
    (on : n ≠ 0#64 ∧ m = n ∧ again = started ∨ n = 0#64 ∧ started = true ∧ m = s.memRoot ∧ again = false) :
    turn req fuel a started best s = mallocLoop (size64 req) (req32 req) fuel m again best s := by
  have good := laid.each a List.mem_append_cons_self
  by_cases short : a.bytes - a.usage < req + 72
  · have check : checkSpace a.maj (size64 req) started a.spare s = some (.on m again, s) := by
      rw [checkSpace, if_pos ((short_iff good small).mpr short), bind_eq next]
      rcases on with ⟨proper, rfl, rfl⟩ | ⟨rfl, rfl, rfl, rfl⟩
      · rw [if_pos proper]
        rfl
      · rfl
    exact bind_eq check
  · have other : nextMajor a.maj (size64 req) started s = some (some (m, again), s) := by
      rw [nextMajor, bind_eq next]
      rcases on with ⟨proper, rfl, rfl⟩ | ⟨rfl, rfl, rfl, rfl⟩
      · rw [if_pos proper]
        rfl
      · rfl
    rw [turn, bind_eq (checkSpace_wide laid small short), resume, bind_eq (placeIn_none laid small holds full used enough)]
    exact bind_eq other

end Turns

theorem next_read (holds : s.Holds (before ++ a :: c :: behind)) : read64 a.maj Major.next s = some (c.maj, s) := by
  have majors := holds.majors
  rw [List.map_append, List.map_cons, List.map_cons] at majors
  exact read_eq majors.split_pair.2.1 .next

theorem last_read (holds : s.Holds (before ++ [a])) : read64 a.maj Major.next s = some (0#64, s) := read_eq holds.last .next

section Growth

/-- The page that `malloc` may be granted next is apart from the majors and ends below the end of the address space. -/
def Supplied (arenas : List Arena) (req : Nat) (s : Liballoc) : Prop :=
  ∀ q, s.pages.headD 0#64 = q → q ≠ 0#64 → Laid (arenas ++ [fresh q req])

/-- What a request for pages comes to. -/
def PageAdded (arenas : List Arena) (req : Nat) (s : Liballoc) (p : W64) (s' : Liballoc) : Prop :=
  (s.pages.headD 0#64 = 0#64 ∧ p = 0#64 ∧ Edited arenas (s.refused req) s') ∨
    (s.pages.headD 0#64 = p ∧ p ≠ 0#64 ∧ Edited (arenas ++ [fresh p req]) (s.granted req) s')

theorem addPage_yields (small : req + 4208 ≤ 2 ^ 32) (holds : s.Holds (before ++ [a]))
    (laid : Laid (before ++ [a])) (supplied : Supplied (before ++ [a]) req s) :
    Yields s (addPage a.maj (size64 req)) (PageAdded (before ++ [a]) req s) := by
  by_cases none : s.pages.headD 0#64 = 0#64
  · refine (addPage_refused small none holds laid).mono ?_
    rintro p s' ⟨rfl, edited⟩
    exact .inl ⟨none, rfl, edited⟩
  · refine (addPage_granted small rfl none holds (supplied _ rfl none)).mono ?_
    rintro p s' ⟨rfl, edited⟩
    exact .inr ⟨rfl, none, edited⟩

theorem addPage_choice {α : Type} {full : α} {more : W64 → α} (small : req + 4208 ≤ 2 ^ 32) (holds : s.Holds (before ++ [a]))
    (laid : Laid (before ++ [a])) (supplied : Supplied (before ++ [a]) req s) :
    Yields s (addPage a.maj (size64 req) >>= fun p => if p = 0#64 then pure full else pure (more p)) fun r s' =>
      ∃ p, PageAdded (before ++ [a]) req s p s' ∧ r = if p = 0#64 then full else more p := by
  refine (addPage_yields small holds laid supplied).bind fun p s' added => ?_
  exact .ite (fun zero => .pure ⟨p, added, by rw [if_pos zero]⟩) fun other => .pure ⟨p, added, by rw [if_neg other]⟩

theorem Edited.root_holds (edited : Edited arenas s s1) : s1.Holds arenas := by
  have root : s1.memRoot = s.memRoot := by rw [edited.vars]
  rw [Liballoc.Holds, root]
  exact edited.holds

theorem Edited.trans {s2 : Liballoc} {b : Block} (first : Edited arenas s s1)
    (second : Edited arenas' ((s1.withBet bet).charged b) s2)
    (more : ∀ x, Bookkeeping arenas x → Bookkeeping arenas' x) : Edited arenas' ((s.withBet bet).charged b) s2 := by
  obtain ⟨holds, frame, vars⟩ := second
  have root : s1.memRoot = s.memRoot := by rw [first.vars]
  refine ⟨?_, fun x other => ?_, ?_⟩
  · change Holds s2.mem s1.memRoot arenas' at holds
    rw [root] at holds
    exact holds
  · exact (frame x other).trans (first.frame x fun old => other (more x old))
  · rw [vars, first.vars]
    rfl

section

variable (small : req + 4208 ≤ 2 ^ 32) (laid : Laid (arenas ++ [fresh q req]))
  (edited : Edited (arenas ++ [fresh q req]) (s.granted req) s1)
include small laid edited

theorem fresh_placed (enough : 1 ≤ fuel) : Yields (s1.withBet bet) (placeIn fuel q (size64 req) (req32 req)) fun p s' =>
      p = some (Block.make req (q.toNat + 40)).ptr ∧
        Edited (arenas ++ [(fresh q req).withBlocks [Block.make req (q.toNat + 40)]])
          (((s.granted req).withBet bet).charged (Block.make req (q.toNat + 40))) s' := by
  have bounds := pagesFor_bounds small
  have holds : s1.Holds (arenas ++ [fresh q req]) := edited.root_holds
  have placed := @placeIn_yields arenas [] (fresh q req) (s1.withBet bet) req holds laid fuel (by omega)
    (fun _ => bounds.1) enough
  rw [fresh_place, fresh_room small] at placed
  refine placed.mono ?_
  rintro p s' ⟨xs, ys, b, split, blocks, -, -, _, rfl, rfl, done⟩
  obtain ⟨rfl, rfl⟩ : xs = [] ∧ ys = [] := List.append_eq_nil_iff.mp split.symm
  cases blocks
  refine ⟨rfl, edited.trans done fun x => Bookkeeping.mono fun d member => ?_⟩
  rcases List.mem_append.mp member with old | new
  · exact ⟨d, List.mem_append_left _ old, rfl, fun _ => id⟩
  · cases List.mem_singleton.mp new
    exact ⟨_, List.mem_append_cons_self, rfl, fun c none => by cases none⟩

theorem fresh_searched (enough : 2 ≤ fuel) :
    Yields s1 (mallocLoop (size64 req) (req32 req) fuel q started best) fun p s' => ∃ bet, (bet = s1.bestBet ∨ bet = q) ∧
      p = (Block.make req (q.toNat + 40)).ptr ∧ Edited (arenas ++ [(fresh q req).withBlocks [Block.make req (q.toNat + 40)]])
        (((s.granted req).withBet bet).charged (Block.make req (q.toNat + 40))) s' := by
  obtain ⟨fuel, rfl⟩ : ∃ n, fuel = n + 1 := ⟨fuel - 1, by omega⟩
  obtain ⟨bet, best', either, same⟩ := @mallocLoop_turn _ _ _ s1 req fuel best started edited.root_holds
    (laid.each _ List.mem_append_cons_self)
  have here := @checkSpace_here _ _ _ (s1.withBet bet) req started laid (by omega) _ (fresh_room small)
  unfold turn at same
  rw [fresh_place] at same either here
  refine .congr same (.after here ?_)
  refine (fresh_placed small laid edited (by omega : 1 ≤ fuel)).bind ?_
  rintro _ s2 ⟨rfl, edited'⟩
  exact .pure ⟨bet, either, rfl, edited'⟩

end

theorem giveUp_yields (edited : Edited arenas (s.refused req) s1) (full : ∀ a ∈ arenas, a.room req = none)
    (none : s.pages.headD 0#64 = 0#64) (held : Bet arenas s.bestBet) : Yields s1 giveUp (Served arenas req s) := by
  refine .after rfl (.pure ⟨_, arenas, s.bestBet, .refused full none, held, edited.holds, edited.frame, ?_⟩)
  rw [edited.vars]
  rfl

theorem fresh_served (full : ∀ a ∈ arenas, a.room req = none)
    (head : s.pages.headD 0#64 = q) (proper : q ≠ 0#64) (held : Bet arenas bet ∨ bet = q)
    (edited : Edited (arenas ++ [(fresh q req).withBlocks [Block.make req (q.toNat + 40)]])
      (((s.granted req).withBet bet).charged (Block.make req (q.toNat + 40))) s1) :
    Served arenas req s (Block.make req (q.toNat + 40)).ptr s1 := by
  refine ⟨_, _, bet, .grown full head proper, ?_, edited⟩
  rcases held with old | rfl
  · exact old.mono fun a member => ⟨a, List.mem_append_left _ member, rfl⟩
  · exact .inr ⟨_, List.mem_append_cons_self, (@fresh_place req _).symm⟩

theorem turn_last (small : req + 4208 ≤ 2 ^ 32) (full : ∀ d ∈ before ++ [a], d.room req = none) (used : a.blocks ≠ [])
    (enough : a.blocks.length + 2 ≤ fuel) (holds : s.Holds (before ++ [a])) (laid : Laid (before ++ [a]))
    (supplied : Supplied (before ++ [a]) req s) (held : Bet (before ++ [a]) s.bestBet) :
    Yields s (turn req fuel a false best) (Served (before ++ [a]) req s) := by
  have here : a ∈ before ++ [a] := List.mem_append_cons_self
  have bet : ∀ {p s1}, Edited (before ++ [a] ++ [fresh p req]) (s.granted req) s1 → Bet (before ++ [a]) s1.bestBet := by
    intro p s1 edited
    rw [edited.vars]
    exact held
  by_cases short : a.bytes - a.usage < req + 72
  · have check : Yields s (checkSpace a.maj (size64 req) false a.spare) fun turn s' =>
        ∃ p, PageAdded (before ++ [a]) req s p s' ∧ turn = if p = 0#64 then .stop else .here p := by
      rw [checkSpace, if_pos ((short_iff (laid.each a here) (by omega)).mpr short)]
      exact .after (last_read holds) (addPage_choice small holds laid supplied)
    refine check.bind ?_
    rintro _ s1 ⟨p, ⟨none, rfl, edited⟩ | ⟨head, proper, edited⟩, rfl⟩
    · rw [if_pos rfl]
      exact giveUp_yields edited full none held
    · rw [if_neg proper]
      refine (@fresh_placed _ _ _ req fuel p s1.bestBet small (supplied p head proper) edited (by omega)).bind ?_
      rintro _ s2 ⟨rfl, edited'⟩
      exact .pure (fresh_served full head proper (.inl (bet edited)) edited')
  · refine .after (checkSpace_wide laid (by omega) short) ?_
    refine .after (placeIn_none laid (by omega) holds (full a here) used (by omega)) ?_
    have next : Yields s (nextMajor a.maj (size64 req) false) fun next s' =>
        ∃ p, PageAdded (before ++ [a]) req s p s' ∧ next = if p = 0#64 then none else some (p, false) :=
      .after (last_read holds) (addPage_choice small holds laid supplied)
    refine next.bind ?_
    rintro _ s1 ⟨p, ⟨none, rfl, edited⟩ | ⟨head, proper, edited⟩, rfl⟩
    · rw [if_pos rfl]
      exact giveUp_yields edited full none held
    · rw [if_neg proper]
      refine (fresh_searched small (supplied p head proper) edited (by omega)).mono ?_
      rintro _ s2 ⟨bet', rfl | rfl, rfl, edited'⟩
      · exact fresh_served full head proper (.inl (bet edited)) edited'
      · exact fresh_served full head proper (.inr rfl) edited'

end Growth

section Search

theorem Serves.bestBet (serves : Serves req s arenas p s1 arenas') : s1.bestBet = s.bestBet := by
  cases serves <;> rfl

theorem Serves.bases (serves : Serves req s arenas p s1 arenas') (member : a ∈ arenas) : ∃ d ∈ arenas', d.base = a.base := by
  cases serves with
  | placed room split sized =>
    rcases mem_middle.mp member with rfl | other
    · exact ⟨_, List.mem_append_cons_self, rfl⟩
    · exact ⟨a, mem_middle.mpr (.inr other), rfl⟩
  | grown full head proper => exact ⟨a, List.mem_append_left _ member, rfl⟩
  | refused full head => exact ⟨a, member, rfl⟩

theorem Served.of_withBet (served : Served arenas req (s.withBet bet) p s') : Served arenas req s p s' := by
  obtain ⟨s1, arenas', bet', serves, held, edited⟩ := served
  cases serves with
  | placed room split sized => exact ⟨_, _, bet', .placed room split sized, held, edited⟩
  | grown full head proper => exact ⟨_, _, bet', .grown full head proper, held, edited⟩
  | refused full head => exact ⟨_, _, bet', .refused full head, held, edited⟩

theorem Bet.turn (held : Bet (before ++ a :: behind) s.bestBet) (either : bet = s.bestBet ∨ bet = a.maj) :
    Bet (before ++ a :: behind) bet := by
  rcases either with rfl | rfl
  · exact held
  · exact .inr ⟨a, List.mem_append_cons_self, rfl⟩

section Rounds

variable (small : req + 4208 ≤ 2 ^ 32) (good : Good (before ++ a :: behind)) (held : Bet (before ++ a :: behind) s.bestBet)
  (holds : s.Holds (before ++ a :: behind)) (enough : a.blocks.length + 1 ≤ fuel)
include small good held holds enough

theorem mallocLoop_round (rest : a.room req = none → ∀ bet best', Bet (before ++ a :: behind) bet →
      Yields (s.withBet bet) (turn req fuel a started best') (Served (before ++ a :: behind) req (s.withBet bet))) :
    Yields s (mallocLoop (size64 req) (req32 req) (fuel + 1) a.maj started best) (Served (before ++ a :: behind) req s) := by
  obtain ⟨bet, best', either, same⟩ := mallocLoop_turn holds (good.each a List.mem_append_cons_self)
  suffices served : Yields (s.withBet bet) (turn req fuel a started best')
      (Served (before ++ a :: behind) req (s.withBet bet)) from .congr same (served.mono fun _ _ => Served.of_withBet)
  cases room : a.room req with
  | none => exact rest room bet best' (held.turn either)
  | some blocks =>
    have kept : (s.withBet bet).Holds (before ++ a :: behind) := holds
    refine (turn_placed good.toLaid (by omega) kept room (good.used a List.mem_append_cons_self) enough).mono ?_
    rintro p s' ⟨s1, arenas', serves, edited⟩
    refine ⟨s1, arenas', s1.bestBet, serves, ?_, edited⟩
    rw [serves.bestBet]
    exact (held.turn either).mono fun d member => serves.bases member

end Rounds

variable {most : Nat}

theorem full_snoc (full : ∀ d ∈ before, d.room req = none) (room : a.room req = none) :
    ∀ d ∈ before ++ [a], d.room req = none := by
  intro d member
  rcases List.mem_append.mp member with left | here
  · exact full d left
  · cases List.mem_singleton.mp here
    exact room

theorem turn_next (small : req + 4208 ≤ 2 ^ 32) (good : Good (before ++ a :: c :: behind))
    (holds : s.Holds (before ++ a :: c :: behind)) (enough : a.blocks.length + 1 ≤ fuel) (room : a.room req = none) :
    turn req fuel a started best s = mallocLoop (size64 req) (req32 req) fuel c.maj started best s := by
  have good' := good.each c (List.mem_append_right _ (List.mem_cons_of_mem _ List.mem_cons_self))
  have fits := good'.fits
  have base := good'.base_lt
  exact turn_on good.toLaid (by omega) holds room (good.used a List.mem_append_cons_self) enough (next_read holds)
    (.inl ⟨ofNat_ne_zero good'.pos (by omega), rfl, rfl⟩)

variable (small : req + 4208 ≤ 2 ^ 32) (good : Good (before ++ a :: behind))
  (sizes : ∀ d ∈ before ++ a :: behind, d.blocks.length ≤ most) (supplied : Supplied (before ++ a :: behind) req s)
  (holds : s.Holds (before ++ a :: behind)) (held : Bet (before ++ a :: behind) s.bestBet)
include small good sizes supplied holds held

theorem mallocLoop_served (full : ∀ d ∈ before, d.room req = none) (enough : behind.length + most + 3 ≤ fuel) :
    Yields s (mallocLoop (size64 req) (req32 req) fuel a.maj false best) (Served (before ++ a :: behind) req s) := by
  induction behind generalizing before a s fuel best with
  | nil =>
    obtain ⟨fuel, rfl⟩ : ∃ n, fuel = n + 1 := ⟨fuel - 1, by omega⟩
    have size := sizes a List.mem_append_cons_self
    simp only [List.length_nil] at enough
    refine mallocLoop_round small good held holds (by omega) fun room bet best' held' => ?_
    exact turn_last small (full_snoc full room) (good.used a List.mem_append_cons_self) (by omega) holds good.toLaid supplied held'
  | cons c behind ih =>
    obtain ⟨fuel, rfl⟩ : ∃ n, fuel = n + 1 := ⟨fuel - 1, by omega⟩
    have size := sizes a List.mem_append_cons_self
    rw [List.length_cons] at enough
    refine mallocLoop_round small good held holds (by omega) fun room bet best' held' => ?_
    refine .congr (turn_next small good holds (by omega) room) ?_
    rw [List.append_cons] at good sizes supplied holds held' ⊢
    exact ih good sizes supplied holds held' (full_snoc full room) (by omega)

theorem mallocLoop_bet (enough : behind.length + (before ++ a :: behind).length + most + 4 ≤ fuel) :
    Yields s (mallocLoop (size64 req) (req32 req) fuel a.maj true best) (Served (before ++ a :: behind) req s) := by
  induction behind generalizing before a s fuel best with
  | nil =>
    obtain ⟨fuel, rfl⟩ : ∃ n, fuel = n + 1 := ⟨fuel - 1, by omega⟩
    have size := sizes a List.mem_append_cons_self
    simp only [List.length_nil] at enough
    refine mallocLoop_round small good held holds (by omega) fun room bet best' held' => ?_
    have kept : (s.withBet bet).Holds (before ++ [a]) := holds
    have back : turn req fuel a true best' (s.withBet bet) =
        mallocLoop (size64 req) (req32 req) fuel s.memRoot false best' (s.withBet bet) :=
      turn_on good.toLaid (by omega) kept room (good.used a List.mem_append_cons_self) (by omega) (last_read kept)
        (.inr ⟨rfl, rfl, rfl, rfl⟩)
    refine .congr back ?_
    obtain ⟨first, rest, split⟩ : ∃ first rest, before ++ [a] = first :: rest := by
      cases before with
      | nil => exact ⟨a, [], rfl⟩
      | cons first before => exact ⟨first, before ++ [a], rfl⟩
    rw [split] at good sizes supplied holds held' enough ⊢
    have root : s.memRoot = first.maj := holds.majors.1
    rw [List.length_cons] at enough
    rw [root]
    exact @mallocLoop_served [] rest first _ req fuel best' most small good sizes supplied holds held'
      (fun d none => by cases none) (by omega)
  | cons c behind ih =>
    obtain ⟨fuel, rfl⟩ : ∃ n, fuel = n + 1 := ⟨fuel - 1, by omega⟩
    have size := sizes a List.mem_append_cons_self
    rw [List.length_cons] at enough
    refine mallocLoop_round small good held holds (by omega) fun room bet best' held' => ?_
    refine .congr (turn_next small good holds (by omega) room) ?_
    rw [List.append_cons] at good sizes supplied holds held' enough ⊢
    exact ih good sizes supplied holds held' (by omega)

end Search

end Neutrino.Alloc
