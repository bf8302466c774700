import Neutrino.Alloc.Malloc

namespace Neutrino.Alloc

open Library

variable {places : Set W64} {s0 s : Liballoc} {h h' : LinkStore W64 Counts} {x maj : W64} {n : LinkNode W64 Counts}

theorem Track.vary (track : Track places s0 s h) (f : Liballoc → Liballoc) (memory : ∀ s, (f s).mem = s.mem)
    (commutes : ∀ s m, f { s with mem := m } = { f s with mem := m }) : Track places (f s0) (f s) h := by
  refine ⟨track.apart, fun a listed => ?_, fun a other => ?_, ?_⟩
  · rw [memory]
    exact track.typed a listed
  · rw [memory, memory]
    exact track.frame a other
  · rw [memory, ← commutes, ← track.vars]

/-- The neighbours of a header are headers, and others than itself. -/
structure Neighbours (places : Set W64) (x : W64) (n : LinkNode W64 Counts) : Prop where
  next : n.next ≠ 0#64 → n.next ∈ places ∧ x ≠ n.next
  prev : n.prev ≠ 0#64 → n.prev ∈ places ∧ x ≠ n.prev
  differ : n.next ≠ 0#64 → n.next ≠ n.prev

/-- The header that the link `f` leads to, if it leads to one, has got the link `g`. -/
def Relinked (n : LinkNode W64 Counts) (f g : Field 64) (h h' : LinkStore W64 Counts) : Prop :=
  (f.get n ≠ 0#64 → ∀ m, h (f.get n) = some m → h' (f.get n) = some (g.set m (g.get n))) ∧
    ∀ y, (f.get n ≠ 0#64 → y ≠ f.get n) → h' y = h y

theorem relink_yields (track : Track places s0 s h) (site : x ∈ places) (node : h x = some n) (f g : Field 64)
    (there : f.get n ≠ 0#64 → f.get n ∈ places) :
    Yields s (do
      let y ← read64 x f.offset
      if y ≠ 0#64 then write64 y g.offset (← read64 x g.offset)) fun _ s' =>
      ∃ h', Track places s0 s' h' ∧ Relinked n f g h h' := by
  refine track.read site node f ?_
  refine .ite (fun proper => ?_) fun zero => .pure ⟨h, track, fun proper => absurd proper zero, fun _ _ => rfl⟩
  have typed := track.typed _ (there proper)
  refine track.read site node g (.of_eq rfl ⟨_, track.put (there proper) typed.symm g, fun _ m here => ?_, fun y other => ?_⟩)
  · rw [Function.update_self]
    cases typed.trans here
    rfl
  · exact Function.update_of_ne (other proper) _ _

theorem spliced_charge {v : Option (LinkNode W64 Counts)} (spliced : Spliced 0#64 maj n h h')
    (next : n.next ≠ 0#64 → maj ≠ n.next) (prev : n.prev ≠ 0#64 → maj ≠ n.prev) :
    Spliced 0#64 maj n h (Function.update h' maj v) := by
  refine ⟨fun proper m there => ?_, fun proper m there => ?_, fun y other left right => ?_⟩
  · rw [Function.update_of_ne (next proper).symm]
    exact spliced.next proper m there
  · rw [Function.update_of_ne (prev proper).symm]
    exact spliced.prev proper m there
  · rw [Function.update_of_ne other]
    exact spliced.others y other left right

theorem unlinkMinor_yields {min : W64} {m : LinkNode W64 Counts} (track : Track places s0 s h) (site : min ∈ places)
    (node : h min = some n) (near : Neighbours places min n) (site' : maj ∈ places) (node' : h maj = some m)
    (apart : min ≠ maj) (next : n.next ≠ 0#64 → maj ≠ n.next) (prev : n.prev ≠ 0#64 → maj ≠ n.prev) :
    Yields s (unlinkMinor maj min) fun _ s' => ∃ h', Track places s0 s' h' ∧ Spliced 0#64 maj n h h' ∧
      h' maj = some { m with data := { m.data with owner := if n.prev = 0#64 then n.next else m.data.owner } } ∧
      h' min = some n := by
  unfold unlinkMinor
  refine (relink_yields track site node .next .prev fun proper => (near.next proper).1).bind ?_
  rintro _ s1 ⟨h1, track, behind, others⟩
  have node1 : h1 min = some n := (others min fun proper => (near.next proper).2).trans node
  refine (relink_yields track site node1 .prev .next fun proper => (near.prev proper).1).bind ?_
  rintro _ s2 ⟨h2, track, before, others'⟩
  have node2 : h2 min = some n := (others' min fun proper => (near.prev proper).2).trans node1
  have spliced : Spliced 0#64 maj n h h2 := by
    refine ⟨fun proper m there => ?_, fun proper m there => ?_, fun y _ left right => ?_⟩
    · exact (others' _ fun _ => near.differ proper).trans (behind proper m there)
    · exact before proper m ((others _ fun proper => (near.differ proper).symm).trans there)
    · exact (others' y right).trans (others y left)
  have major : h2 maj = some m := (others' maj prev).trans ((others maj next).trans node')
  refine track.read site node2 .prev ?_
  refine .ite (fun zero => ?_) fun proper => .pure ⟨h2, track, spliced, ?_, node2⟩
  · have first : n.prev = 0#64 := zero
    refine track.read site node2 .next (.of_eq rfl ⟨_, track.put site' major .owner, spliced_charge spliced next prev, ?_, ?_⟩)
    · rw [Function.update_self, if_pos first]
      rfl
    · exact (Function.update_of_ne apart _ _).trans node2
  · have later : n.prev ≠ 0#64 := proper
    rw [major, if_neg later]

/-- The variables once a major has gone back to the system. -/
def Liballoc.dropped (s : Liballoc) (maj : W64) (n : LinkNode W64 Counts) : Liballoc :=
  { s with
    memRoot := if s.memRoot = maj then n.next else s.memRoot
    bestBet := if s.bestBet = maj then 0#64 else s.bestBet
    returned := s.returned ++ [(maj, n.data.one)]
    allocated := s.allocated - n.data.two.setWidth 64 }

theorem dropRoot_yields (track : Track places s0 s h) (site : maj ∈ places) (node : h maj = some n) :
    Yields s (dropRoot maj) fun _ s' =>
      Track places { s0 with memRoot := if s0.memRoot = maj then n.next else s0.memRoot } s' h := by
  have root : s.memRoot = s0.memRoot := by rw [track.vars]
  unfold dropRoot
  refine .get (.ite (fun first => ?_) fun other => .pure ?_)
  · refine track.read site node .next (.of_eq rfl ?_)
    rw [if_pos (root.symm.trans first)]
    exact track.vary (fun s => { s with memRoot := n.next }) (fun _ => rfl) fun _ _ => rfl
  · rw [if_neg fun first => other (root.trans first)]
    exact track

theorem dropBet_yields (track : Track places s0 s h) :
    Yields s (dropBet maj) fun _ s' => Track places { s0 with bestBet := if s0.bestBet = maj then 0#64 else s0.bestBet } s' h := by
  have bet : s.bestBet = s0.bestBet := by rw [track.vars]
  unfold dropBet
  refine .get (.ite (fun best => .of_eq rfl ?_) fun other => .pure ?_)
  · rw [if_pos (bet.symm.trans best)]
    exact track.vary (fun s => { s with bestBet := 0#64 }) (fun _ => rfl) fun _ _ => rfl
  · rw [if_neg fun best => other (bet.trans best)]
    exact track

theorem dropMajor_yields (track : Track places s0 s h) (site : maj ∈ places) (node : h maj = some n)
    (near : Neighbours places maj n) :
    Yields s (dropMajor maj) fun _ s' => ∃ h', Track places (s0.dropped maj n) s' h' ∧ Spliced 0#64 maj n h h' := by
  unfold dropMajor
  refine (dropRoot_yields track site node).bind fun _ s1 track => ?_
  refine (dropBet_yields track).bind fun _ s2 track => ?_
  refine (relink_yields track site node .prev .next fun proper => (near.prev proper).1).bind ?_
  rintro _ s3 ⟨h1, track, before, others⟩
  have node1 : h1 maj = some n := (others maj fun proper => (near.prev proper).2).trans node
  refine (relink_yields track site node1 .next .prev fun proper => (near.next proper).1).bind ?_
  rintro _ s4 ⟨h2, track, behind, others'⟩
  have node2 : h2 maj = some n := (others' maj fun proper => (near.next proper).2).trans node1
  have spliced : Spliced 0#64 maj n h h2 := by
    refine ⟨fun proper m there => ?_, fun proper m there => ?_, fun y _ left right => ?_⟩
    · exact behind proper m ((others _ fun _ => near.differ proper).trans there)
    · exact (others' _ fun proper => (near.differ proper).symm).trans (before proper m there)
    · exact (others' y left).trans (others y right)
  refine track.read site node2 .two (.after rfl ?_)
  have charged := track.vary (fun s => { s with allocated := s.allocated - n.data.two.setWidth 64 }) (fun _ => rfl) fun _ _ => rfl
  refine charged.read site node2 .one (.of_eq rfl ⟨h2, ?_, spliced⟩)
  exact charged.vary (fun s => { s with returned := s.returned ++ [(maj, n.data.one)] }) (fun _ => rfl) fun _ _ => rfl

end Neutrino.Alloc
