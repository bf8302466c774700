import Neutrino.Alloc.Search

namespace Neutrino.Alloc

open Library

def live (arenas : List Arena) : List Block := arenas.flatMap Arena.blocks

/-- What holds between two calls. -/
structure Inv (s : Liballoc) (arenas : List Arena) : Prop where
  good : Good arenas
  holds : s.Holds arenas
  bet : Bet arenas s.bestBet
  unlocked : s.locked = false
  allocated : s.allocated = BitVec.ofNat 64 (arenas.map Arena.bytes).sum
  inuse : s.inuse = BitVec.ofNat 64 ((live arenas).map Block.size).sum

variable {arenas arenas' : List Arena} {s s1 s' : Liballoc} {req fuel : Nat} {p q bet root : W64}

/-- What a call of `malloc` has done. -/
structure Malloced (req : Nat) (s : Liballoc) (arenas : List Arena) (p : W64) (s' : Liballoc) (arenas' : List Arena) : Prop where
  inv : Inv s' arenas'
  serves : ∃ s1, Serves req s arenas p s1 arenas' ∧ s'.pages = s1.pages ∧ s'.asked = s1.asked ∧ s'.returned = s1.returned
  frame : ∀ x, ¬ Bookkeeping arenas' x → s'.mem x = s.mem x

section Outcome

variable (serves : Serves req s arenas p s1 arenas')
include serves

theorem Serves.mem : s1.mem = s.mem := by
  cases serves <;> rfl

theorem Serves.unlocked : s1.locked = false := by
  cases serves <;> rfl

theorem Serves.good (good : Good arenas) (small : req + 4208 ≤ 2 ^ 32) (supplied : Supplied arenas req s) : Good arenas' := by
  cases serves with
  | @placed before behind a xs ys b room split sized =>
    have ordered := (good.each a List.mem_append_cons_self).ordered.place (Block.make_bounds req) room
    refine good.insert ordered (fun e member => ?_) fun empty =>
      absurd (List.append_eq_nil_iff.mp empty).2 (List.cons_ne_nil _ _)
    by_cases new : e = b
    · subst new
      exact .inr (by omega)
    · rw [split]
      simp only [List.mem_append, List.mem_cons] at member ⊢
      exact .inl (by tauto)
  | @grown _ q full head proper =>
    have bounds := pagesFor_bounds small
    have laid := supplied q head proper
    obtain ⟨addr, stop⟩ := Block.make_bounds req (q.toNat + 40)
    refine ⟨laid.insert ?_ fun e member => ?_, fun e member => ?_⟩
    · refine ⟨?_, ?_, ?_⟩
      · rw [addr]
        exact Nat.le_refl _
      · omega
      · rw [stop]
        simp only [FirstFit.Ordered, fresh, Arena.stop, Arena.bytes]
        omega
    · cases List.mem_singleton.mp member
      exact .inr (Nat.le_refl _)
    · rcases List.mem_append.mp member with left | right
      · exact good.used e left
      · cases List.mem_singleton.mp right
        exact List.cons_ne_nil _ _
  | refused full head => exact good

theorem Serves.allocated (total : s.allocated = BitVec.ofNat 64 (arenas.map Arena.bytes).sum) :
    s1.allocated = BitVec.ofNat 64 (arenas'.map Arena.bytes).sum := by
  cases serves with
  | placed room split sized =>
    simp only [Liballoc.charged, total, List.map_append, List.map_cons, Arena.withBlocks_bytes]
  | @grown _ q full head proper =>
    have bytes : (fresh q req).bytes = pagesFor req * 4096 := rfl
    have gained : (s.granted req).allocated = s.allocated + BitVec.ofNat 64 (pagesFor req * 4096) := rfl
    rw [List.map_append, List.sum_append, List.map_singleton, List.sum_singleton, Arena.withBlocks_bytes, bytes, BitVec.ofNat_add,
      ← total]
    exact gained
  | refused full head => exact total

theorem Serves.inuse (total : s.inuse = BitVec.ofNat 64 ((live arenas).map Block.size).sum) :
    s1.inuse = BitVec.ofNat 64 ((live arenas').map Block.size).sum := by
  cases serves with
  | placed room split sized =>
    simp only [Liballoc.charged, total, live, List.flatMap_append, List.flatMap_cons, List.map_append, List.map_cons,
      List.sum_append, List.sum_cons, Arena.withBlocks_blocks, split]
    rw [← BitVec.ofNat_add]
    congr 1
    omega
  | grown full head proper =>
    simp only [Liballoc.charged, Liballoc.granted, Liballoc.refused, total, live, List.flatMap_append, List.flatMap_cons,
      List.flatMap_nil, List.map_append, List.map_cons, List.map_nil, List.sum_append, List.sum_cons, List.sum_nil,
      Arena.withBlocks_blocks, List.append_nil, Nat.add_zero]
    rw [← BitVec.ofNat_add]
  | refused full head => exact total

theorem Serves.malloced (inv : Inv s arenas) (small : req + 4208 ≤ 2 ^ 32) (supplied : Supplied arenas req s)
    (held : Bet arenas' bet) (edited : Edited arenas' { s1 with bestBet := bet, memRoot := root } s') :
    Malloced req s arenas p s' arenas' := by
  have vars := edited.vars
  refine ⟨⟨serves.good inv.good small supplied, edited.root_holds, ?_, ?_, ?_, ?_⟩, ⟨s1, serves, ?_, ?_, ?_⟩, fun x other => ?_⟩
  · rw [vars]
    exact held
  · rw [vars]
    exact serves.unlocked
  · rw [vars]
    exact serves.allocated inv.allocated
  · rw [vars]
    exact serves.inuse inv.inuse
  · rw [vars]
  · rw [vars]
  · rw [vars]
  · rw [edited.frame x other, ← serves.mem]

end Outcome

/-- Iterations that the search for a place never needs more of. -/
def searchBound (arenas : List Arena) : Nat := 2 * arenas.length + (live arenas).length + 4

theorem blocks_le_live {a : Arena} (member : a ∈ arenas) : a.blocks.length ≤ (live arenas).length := by
  obtain ⟨before, behind, rfl⟩ := List.append_of_mem member
  simp only [live, List.flatMap_append, List.flatMap_cons, List.length_append]
  omega

def Liballoc.taken (s : Liballoc) : Liballoc := { s with locked := true }

def Liballoc.rooted (s : Liballoc) (root : W64) : Liballoc := { s with memRoot := root }

theorem lock_eq (unlocked : s.locked = false) : liballocLock s = some ((), s.taken) := by
  rw [liballocLock, unlocked]
  rfl

theorem Served.malloced (inv : Inv s arenas) (small : req + 4208 ≤ 2 ^ 32) (supplied : Supplied arenas req s)
    (served : Served arenas req s.taken p s') : ∃ arenas', Malloced req s arenas p s' arenas' := by
  obtain ⟨s1, arenas', bet, serves, held, edited⟩ := served
  have serves' : Serves req s arenas p s1 arenas' := by
    cases serves with
    | placed room split sized => exact .placed room split sized
    | grown full head proper => exact .grown full head proper
    | refused full head => exact .refused full head
  exact ⟨arenas', serves'.malloced inv small supplied held edited⟩

theorem size_eq (small : req + 4208 ≤ 2 ^ 32) : (BitVec.ofNat 32 req).setWidth 64 + 32#64 = size64 req := by
  rw [setWidth_ofNat (by omega), ← BitVec.ofNat_add]

theorem malloc_first (inv : Inv s []) (small : req + 4208 ≤ 2 ^ 32) (supplied : Supplied [] req s) (enough : 2 ≤ fuel) :
    Yields s (malloc fuel (req32 req)) fun p s' => ∃ arenas', Malloced req s [] p s' arenas' := by
  have root : s.memRoot = 0#64 := inv.holds.majors
  have noBet : s.bestBet = 0#64 := by
    rcases inv.bet with zero | ⟨a, member, -⟩
    · exact zero
    · cases member
  unfold malloc
  rw [size_eq small]
  refine .after (lock_eq inv.unlocked) ?_
  refine .get ?_
  refine .ite (fun _ => ?_) fun other => absurd root other
  rw [setWidth_ofNat_low]
  by_cases none : s.pages.headD 0#64 = 0#64
  · refine .after (allocNewPage_refused small none) (.after rfl ?_)
    refine .ite (fun _ => .after rfl (.pure ⟨[], ?_⟩)) fun other => absurd rfl other
    have serves : Serves req s [] 0#64 _ [] := .refused (fun a member => by cases member) none
    refine serves.malloced inv small supplied inv.bet ⟨⟨rfl, ?_, ?_⟩, fun _ _ => rfl, rfl⟩
    · intro a member
      cases member
    · intro a member
      cases member
  · obtain ⟨q, head⟩ : ∃ q, s.pages.headD 0#64 = q := ⟨_, rfl⟩
    rw [head] at none
    have laid := supplied q head none
    refine (@allocNewPage_granted [] s.taken req q small head none laid).bind ?_
    rintro q s1 ⟨rfl, track⟩
    have unbet : s1.bestBet = 0#64 := by
      rw [track.vars]
      exact noBet
    have edited : Edited ([] ++ [fresh q req]) ((s.taken.rooted q).granted req) (s1.rooted q) := by
      refine ⟨⟨?_, fun a member => ?_, fun a member b inside => ?_⟩, fun x other => track.unbooked other, ?_⟩
      · change Segment (records s1.mem) 0#64 q [(fresh q req).node] 0#64
        rw [fresh_node_eq]
        exact .single ((track.typed q fresh_site).trans (Function.update_self _ _ _))
      · cases List.mem_singleton.mp member
        exact .nil
      · cases List.mem_singleton.mp member
        cases inside
      · exact congrArg (fun s => s.rooted q) track.vars
    refine .after rfl ?_
    refine .ite (fun zero => absurd zero none) fun _ => ?_
    refine .get (.get (.ite (fun other => absurd unbet other) fun _ => ?_))
    refine (fresh_searched small laid edited enough).mono ?_
    rintro _ s2 ⟨bet, either, rfl, edited'⟩
    have serves : Serves req s [] _ _ _ := .grown (fun a member => by cases member) head none
    refine ⟨_, serves.malloced inv small supplied ?_ edited'⟩
    rcases either with rfl | rfl
    · exact .inl unbet
    · exact .inr ⟨_, List.mem_append_cons_self, (@fresh_place req _).symm⟩

theorem malloc_yields (inv : Inv s arenas) (small : req + 4208 ≤ 2 ^ 32) (supplied : Supplied arenas req s)
    (enough : searchBound arenas ≤ fuel) :
    Yields s (malloc fuel (req32 req)) fun p s' => ∃ arenas', Malloced req s arenas p s' arenas' := by
  unfold searchBound at enough
  cases arenas with
  | nil => exact malloc_first inv small supplied (by omega)
  | cons first rest =>
    have good := inv.good
    have good' := good.each first List.mem_cons_self
    have fits := good'.fits
    have room := good'.base_lt
    have root : s.memRoot = first.maj := inv.holds.majors.1
    have proper : s.memRoot ≠ 0#64 := by
      rw [root]
      exact ofNat_ne_zero good'.pos (by omega)
    have sizes : ∀ d ∈ first :: rest, d.blocks.length ≤ (live (first :: rest)).length := fun d member => blocks_le_live member
    rw [List.length_cons] at enough
    have fromRoot : ∀ best, Yields s.taken (mallocLoop (size64 req) (req32 req) fuel s.memRoot false best)
        fun p s' => ∃ arenas', Malloced req s (first :: rest) p s' arenas' := by
      intro best
      rw [root]
      refine Yields.mono ?_ fun p s' => Served.malloced inv small supplied
      exact @mallocLoop_served [] rest first s.taken req fuel best _ small good sizes supplied inv.holds inv.bet
        (fun d none => by cases none) (by omega)
    unfold malloc
    rw [size_eq small]
    refine .after (lock_eq inv.unlocked) (.get ?_)
    refine .ite (fun zero => absurd zero proper) fun _ => .get (.get ?_)
    refine .ite (fun bet => ?_) fun _ => fromRoot 0#64
    obtain zero | ⟨d, member, same⟩ := inv.bet
    · exact absurd zero bet
    obtain ⟨before, behind, split⟩ := List.append_of_mem member
    have holds := inv.holds
    rw [split] at holds
    have held : s.taken.Holds (before ++ d :: behind) := holds
    have spare : spare s.taken.bestBet s.taken = some (d.spare, s.taken) := by
      rw [← spare_eq held (good.each d member), ← same]
      rfl
    refine .after spare (.ite (fun _ => ?_) fun _ => fromRoot _)
    refine Yields.mono ?_ fun p s' => Served.malloced inv small supplied
    have total := congrArg List.length split
    rw [List.length_cons, List.length_append, List.length_cons] at total
    have betted := inv.bet
    have start : s.taken.bestBet = d.maj := same
    rw [split] at good sizes supplied betted enough ⊢
    rw [start]
    exact mallocLoop_bet small good sizes supplied held betted (by rw [List.length_append, List.length_cons]; omega)

end Neutrino.Alloc
