import Mathlib.Data.List.Nodup
import Mathlib.Logic.Function.Basic

namespace Library

/-- A node of a doubly linked list, in a store addressed by `A`. -/
structure LinkNode (A D : Type) where
  data : D
  next : A
  prev : A
deriving DecidableEq

abbrev LinkStore (A D : Type) := A → Option (LinkNode A D)

section Segments

variable {A D : Type}

/-- Nodes in a row from `p` on: each refers to the one before it and to the one after it, the first
    to `before` and the last to `after`. -/
def Segment (h : LinkStore A D) : (before p : A) → List (A × D) → (after : A) → Prop
  | _, p, [], after => p = after
  | before, p, (a, d) :: rest, after =>
    p = a ∧ ∃ next, h a = some ⟨d, next, before⟩ ∧ Segment h a next rest after

/-- The address of the last node, and `before` if there is none. -/
def lastAddress : A → List (A × D) → A
  | before, [] => before
  | _, (a, _) :: rest => lastAddress a rest

variable {h h' : LinkStore A D} {before p q after a next : A} {d : D} {xs ys : List (A × D)}

theorem lastAddress_snoc : lastAddress before (xs ++ [(a, d)]) = a := by
  induction xs generalizing before with
  | nil => rfl
  | cons x xs ih => exact ih

theorem lastAddress_eq_getLast? : lastAddress before xs = (xs.getLast?.map Prod.fst).getD before := by
  rcases List.eq_nil_or_concat xs with rfl | ⟨ys, y, rfl⟩
  · rfl
  · rw [List.concat_eq_append, lastAddress_snoc, List.getLast?_concat]
    rfl

namespace Segment

theorem nil : Segment h before p [] p := rfl

theorem cons (node : h a = some ⟨d, next, before⟩) (rest : Segment h a next xs after) :
    Segment h before a ((a, d) :: xs) after := ⟨rfl, next, node, rest⟩

theorem single (node : h a = some ⟨d, after, before⟩) : Segment h before a [(a, d)] after :=
  cons node nil

theorem head_eq (segment : Segment h before p (xs ++ (a, d) :: ys) after) :
    ∃ e more, xs ++ (a, d) :: ys = (p, e) :: more := by
  cases xs with
  | nil =>
    cases segment.1
    exact ⟨d, ys, rfl⟩
  | cons x xs =>
    cases segment.1
    exact ⟨x.2, xs ++ (a, d) :: ys, rfl⟩

theorem append (first : Segment h before p xs q) (second : Segment h (lastAddress before xs) q ys after) :
    Segment h before p (xs ++ ys) after := by
  induction xs generalizing before p with
  | nil =>
    cases first
    exact second
  | cons x xs ih =>
    rcases first with ⟨rfl, next, node, rest⟩
    exact ⟨rfl, next, node, ih rest second⟩

theorem split (segment : Segment h before p (xs ++ ys) after) :
    ∃ q, Segment h before p xs q ∧ Segment h (lastAddress before xs) q ys after := by
  induction xs generalizing before p with
  | nil => exact ⟨p, nil, segment⟩
  | cons x xs ih =>
    rcases segment with ⟨rfl, next, node, rest⟩
    rcases ih rest with ⟨q, first, second⟩
    exact ⟨q, ⟨rfl, next, node, first⟩, second⟩

theorem head_getD (segment : Segment h before p xs after) : p = (xs.head?.map Prod.fst).getD after := by
  cases xs with
  | nil => exact segment
  | cons x xs => exact segment.1

theorem congr (segment : Segment h before p xs after) (same : ∀ a ∈ xs.map Prod.fst, h' a = h a) :
    Segment h' before p xs after := by
  induction xs generalizing before p with
  | nil => exact segment
  | cons x xs ih =>
    rcases segment with ⟨rfl, next, node, rest⟩
    rw [List.map_cons] at same
    refine ⟨rfl, next, (same _ List.mem_cons_self).trans node, ih rest fun a member => ?_⟩
    exact same a (List.mem_cons_of_mem _ member)

theorem split_cons (segment : Segment h before p (xs ++ (a, d) :: ys) after) :
    Segment h before p xs a ∧ ∃ next, h a = some ⟨d, next, lastAddress before xs⟩ ∧ Segment h a next ys after := by
  rcases segment.split with ⟨q, first, rfl, second⟩
  exact ⟨first, second⟩

theorem split_pair {b : A} {e : D} (segment : Segment h before p (xs ++ (b, e) :: (a, d) :: ys) after) :
    Segment h before p xs b ∧ h b = some ⟨e, a, lastAddress before xs⟩ ∧
      ∃ next, h a = some ⟨d, next, b⟩ ∧ Segment h a next ys after := by
  rcases segment.split_cons with ⟨first, _, left, rfl, next, right, others⟩
  exact ⟨first, left, next, right, others⟩

theorem last_node (segment : Segment h before p (xs ++ [(a, d)]) after) :
    h a = some ⟨d, after, lastAddress before xs⟩ := by
  rcases segment.split with ⟨q, -, -, next, node, rfl⟩
  exact node

theorem relink_last (segment : Segment h before p (xs ++ [(a, d)]) after)
    (node : h' a = some ⟨d, q, lastAddress before xs⟩) (same : ∀ b ∈ xs.map Prod.fst, h' b = h b) :
    Segment h' before p (xs ++ [(a, d)]) q := by
  rcases segment.split with ⟨head, first, rfl, -⟩
  exact (first.congr same).append (single node)

theorem redata {e : D} (segment : Segment h before p (xs ++ (a, d) :: ys) after)
    (node : ∀ next, h a = some ⟨d, next, lastAddress before xs⟩ → h' a = some ⟨e, next, lastAddress before xs⟩)
    (same : ∀ b ∈ xs.map Prod.fst, h' b = h b) (same' : ∀ b ∈ ys.map Prod.fst, h' b = h b) :
    Segment h' before p (xs ++ (a, e) :: ys) after := by
  rcases segment.split_cons with ⟨first, next, here, rest⟩
  exact (first.congr same).append (cons (node next here) (rest.congr same'))

theorem head_mem (segment : Segment h before p xs after) (proper : p ≠ after) : p ∈ xs.map Prod.fst := by
  cases xs with
  | nil => exact absurd segment proper
  | cons x xs =>
    rw [segment.1]
    exact List.mem_cons_self

theorem relink_first (segment : Segment h before p xs after) (distinct : (xs.map Prod.fst).Nodup)
    (first : p ≠ after → ∀ m, h p = some m → h' p = some { m with prev := q })
    (same : ∀ c ∈ xs.map Prod.fst, c ≠ p → h' c = h c) (ends : after ∉ xs.map Prod.fst) : Segment h' q p xs after := by
  cases xs with
  | nil => exact segment
  | cons x xs =>
    rw [List.map_cons, List.nodup_cons] at distinct
    rcases segment with ⟨rfl, next, here, rest⟩
    have proper : x.1 ≠ after := fun last => ends (by rw [← last]; exact List.mem_cons_self)
    refine ⟨rfl, next, first proper _ here, rest.congr fun c member => same c (List.mem_cons_of_mem _ member) ?_⟩
    rintro rfl
    exact distinct.1 member

theorem allocated (segment : Segment h before p xs after) (member : a ∈ xs.map Prod.fst) :
    ∃ node, h a = some node := by
  induction xs generalizing before p with
  | nil => cases member
  | cons x xs ih =>
    rcases segment with ⟨rfl, next, node, rest⟩
    rcases List.mem_cons.mp member with rfl | member
    · exact ⟨_, node⟩
    · exact ih rest member

theorem unique {before' : A} (first : Segment h before p xs after) (second : Segment h before' p ys after)
    (ends : after ∉ xs.map Prod.fst) (ends' : after ∉ ys.map Prod.fst) : xs = ys := by
  induction xs generalizing before before' p ys with
  | nil =>
    cases ys with
    | nil => rfl
    | cons y ys =>
      cases first
      exact absurd (by rw [second.1]; exact List.mem_cons_self) ends'
  | cons x xs ih =>
    cases ys with
    | nil =>
      cases second
      exact absurd (by rw [first.1]; exact List.mem_cons_self) ends
    | cons y ys =>
      rcases first with ⟨rfl, next, node, rest⟩
      rcases second with ⟨same, next', node', rest'⟩
      rw [← same] at node' rest'
      rw [node] at node'
      have fields := LinkNode.mk.inj (Option.some.inj node')
      rw [← fields.2.1] at rest'
      rw [ih rest rest' (fun member => ends (List.mem_cons_of_mem _ member))
        (fun member => ends' (List.mem_cons_of_mem _ member)), Prod.ext same fields.1]

end Segment

/-- A whole list, from its head on. -/
structure LinkedList (h : LinkStore A D) (null p : A) (nodes : List (A × D)) : Prop where
  segment : Segment h null p nodes null
  distinct : (nodes.map Prod.fst).Nodup
  proper : null ∉ nodes.map Prod.fst

namespace LinkedList

variable {null : A} {nodes : List (A × D)}

theorem empty : LinkedList h null null ([] : List (A × D)) := ⟨rfl, List.nodup_nil, List.not_mem_nil⟩

theorem congr (list : LinkedList h null p nodes) (same : ∀ a ∈ nodes.map Prod.fst, h' a = h a) :
    LinkedList h' null p nodes := ⟨list.segment.congr same, list.distinct, list.proper⟩

theorem nil_iff (list : LinkedList h null p nodes) : p = null ↔ nodes = [] := by
  cases nodes with
  | nil => exact ⟨fun _ => rfl, fun _ => list.segment⟩
  | cons x nodes =>
    refine ⟨?_, nofun⟩
    rintro rfl
    have head := list.segment.1
    exact absurd (List.mem_map.mpr ⟨x, List.mem_cons_self, head.symm⟩) list.proper

theorem unique {nodes' : List (A × D)} (list : LinkedList h null p nodes) (list' : LinkedList h null p nodes') :
    nodes = nodes' := list.segment.unique list'.segment list.proper list'.proper

theorem node (list : LinkedList h null p (xs ++ (a, d) :: ys)) :
    h a = some ⟨d, (ys.head?.map Prod.fst).getD null, lastAddress null xs⟩ := by
  obtain ⟨-, next, here, rest⟩ := list.segment.split_cons
  cases ys with
  | nil =>
    cases rest
    exact here
  | cons y ys =>
    cases rest.1
    exact here

end LinkedList

/-- The node `n` is taken out: the one behind it and the one before it refer to each other. Beside them only what is
    stored at `owner` may change. -/
structure Spliced (null owner : A) (n : LinkNode A D) (h h' : LinkStore A D) : Prop where
  next : n.next ≠ null → ∀ m, h n.next = some m → h' n.next = some { m with prev := n.prev }
  prev : n.prev ≠ null → ∀ m, h n.prev = some m → h' n.prev = some { m with next := n.next }
  others : ∀ b, b ≠ owner → (n.next ≠ null → b ≠ n.next) → (n.prev ≠ null → b ≠ n.prev) → h' b = h b

/-- A node is put in at `b` between `x` and `y`, which refer to it then. -/
structure Inserted (null owner b : A) (d : D) (x y : A) (h h' : LinkStore A D) : Prop where
  new : h' b = some ⟨d, y, x⟩
  next : y ≠ null → ∀ m, h y = some m → h' y = some { m with prev := b }
  prev : x ≠ null → ∀ m, h x = some m → h' x = some { m with next := b }
  others : ∀ c, c ≠ owner → c ≠ b → (y ≠ null → c ≠ y) → (x ≠ null → c ≠ x) → h' c = h c

theorem lastAddress_mem (proper : lastAddress before xs ≠ before) : lastAddress before xs ∈ xs.map Prod.fst := by
  rcases List.eq_nil_or_concat xs with rfl | ⟨ys, ⟨c, e⟩, rfl⟩
  · exact absurd rfl proper
  · rw [List.concat_eq_append, lastAddress_snoc]
    simp

theorem Segment.retarget (segment : Segment h before p xs after) (distinct : (xs.map Prod.fst).Nodup)
    (last : lastAddress before xs ≠ before → ∀ m, h (lastAddress before xs) = some m →
      h' (lastAddress before xs) = some { m with next := q })
    (same : ∀ c ∈ xs.map Prod.fst, c ≠ lastAddress before xs → h' c = h c) (begins : before ∉ xs.map Prod.fst) :
    ∃ p', Segment h' before p' xs q := by
  rcases List.eq_nil_or_concat xs with rfl | ⟨ys, ⟨c, e⟩, rfl⟩
  · exact ⟨q, .nil⟩
  · rw [List.concat_eq_append] at *
    rw [lastAddress_snoc] at last same
    rw [List.map_append, List.nodup_append] at distinct
    have inside : c ∈ (ys ++ [(c, e)]).map Prod.fst := by simp
    have proper : c ≠ before := fun first => begins (first ▸ inside)
    refine ⟨p, segment.relink_last (last proper _ segment.last_node) fun b member => ?_⟩
    refine same b (by rw [List.map_append]; exact List.mem_append_left _ member) ?_
    exact distinct.2.2 b member c List.mem_cons_self

namespace LinkedList

variable {null owner b : A} {n : LinkNode A D}

theorem parts (list : LinkedList h null p (xs ++ ys)) : (xs.map Prod.fst).Nodup ∧ (ys.map Prod.fst).Nodup ∧
    (∀ c ∈ xs.map Prod.fst, ∀ e ∈ ys.map Prod.fst, c ≠ e) ∧ null ∉ xs.map Prod.fst ∧ null ∉ ys.map Prod.fst := by
  obtain ⟨-, distinct, proper⟩ := list
  rw [List.map_append, List.nodup_append] at distinct
  rw [List.map_append, List.mem_append, not_or] at proper
  exact ⟨distinct.1, distinct.2.1, distinct.2.2, proper⟩

theorem insert (list : LinkedList h null p (xs ++ ys)) (outside : owner ∉ (xs ++ ys).map Prod.fst)
    (new : b ∉ (xs ++ ys).map Prod.fst)
    (inserted : Inserted null owner b d (lastAddress null xs) ((ys.head?.map Prod.fst).getD null) h h') :
    ∃ p', Segment h' null p' (xs ++ (b, d) :: ys) null := by
  obtain ⟨left, right, apart, proper, proper'⟩ := list.parts
  obtain ⟨q, first, second⟩ := list.segment.split
  rw [List.map_append, List.mem_append, not_or] at new outside
  rw [← second.head_getD] at inserted
  have behind : Segment h' b q ys null := by
    refine second.relink_first right inserted.next (fun c member other => ?_) proper'
    refine inserted.others c (ne_of_mem_of_not_mem member outside.2) (ne_of_mem_of_not_mem member new.2) (fun _ => other) ?_
    exact fun some => (apart _ (lastAddress_mem some) c member).symm
  obtain ⟨p', before⟩ : ∃ p', Segment h' null p' xs b := by
    refine first.retarget left inserted.prev (fun c member other => ?_) proper
    refine inserted.others c (ne_of_mem_of_not_mem member outside.1) (ne_of_mem_of_not_mem member new.1) ?_ fun _ => other
    exact fun some => apart c member _ (second.head_mem some)
  exact ⟨p', before.append (.cons inserted.new behind)⟩

variable (list : LinkedList h null p (xs ++ (a, d) :: ys))
include list

theorem head_without [DecidableEq A] (here : h a = some n) :
    (if p = a then n.next else p) = ((xs ++ ys).head?.map Prod.fst).getD null := by
  obtain rfl := Option.some.inj (here.symm.trans list.node)
  cases xs with
  | nil => exact if_pos list.segment.1
  | cons x xs =>
    refine (if_neg fun first => ?_).trans list.segment.1
    exact list.parts.2.2.1 x.1 List.mem_cons_self a List.mem_cons_self (list.segment.1.symm.trans first)

theorem splice [DecidableEq A] (outside : owner ∉ (xs ++ ys).map Prod.fst) (here : h a = some n)
    (spliced : Spliced null owner n h h') :
    Segment h' null (if p = a then n.next else p) (xs ++ ys) null := by
  rw [list.head_without here]
  obtain ⟨left, right, apart, proper, proper'⟩ := list.parts
  rw [List.map_cons, List.nodup_cons] at right
  rw [List.map_cons, List.mem_cons, not_or] at proper'
  rw [List.map_append, List.mem_append, not_or] at outside
  obtain ⟨first, next, node, rest⟩ := list.segment.split_cons
  obtain rfl := Option.some.inj (here.symm.trans node)
  have across : ∀ c ∈ xs.map Prod.fst, ∀ e ∈ ys.map Prod.fst, c ≠ e := fun c member e member' =>
    apart c member e (List.mem_cons_of_mem _ member')
  have behind : Segment h' (lastAddress null xs) next ys null := by
    refine rest.relink_first right.2 spliced.next (fun c member other => ?_) proper'.2
    refine spliced.others c (ne_of_mem_of_not_mem member outside.2) (fun _ => other) fun some => ?_
    exact (across _ (lastAddress_mem some) c member).symm
  obtain ⟨p', before⟩ : ∃ p', Segment h' null p' xs next := by
    refine first.retarget left spliced.prev (fun c member other => ?_) proper
    refine spliced.others c (ne_of_mem_of_not_mem member outside.1) (fun some => ?_) fun _ => other
    exact across c member _ (rest.head_mem some)
  have whole := before.append behind
  rw [← whole.head_getD]
  exact whole

theorem next_mem (here : h a = some n) (proper : n.next ≠ null) :
    n.next ∈ ys.map Prod.fst ∧ a ≠ n.next ∧ n.next ≠ n.prev := by
  obtain ⟨-, right, apart, -⟩ := list.parts
  rw [List.map_cons, List.nodup_cons] at right
  obtain ⟨-, next, node, rest⟩ := list.segment.split_cons
  obtain rfl := Option.some.inj (here.symm.trans node)
  have member := rest.head_mem proper
  refine ⟨member, fun same => right.1 (by rw [same]; exact member), fun same => ?_⟩
  have some : lastAddress null xs ≠ null := fun none => proper (same.trans none)
  exact apart _ (lastAddress_mem some) _ (List.mem_cons_of_mem _ member) same.symm

theorem prev_mem (here : h a = some n) (proper : n.prev ≠ null) : n.prev ∈ xs.map Prod.fst ∧ a ≠ n.prev := by
  obtain ⟨-, -, apart, -⟩ := list.parts
  obtain rfl := Option.some.inj (here.symm.trans list.node)
  have member := lastAddress_mem proper
  exact ⟨member, (apart _ member a List.mem_cons_self).symm⟩

theorem prev_null (here : h a = some n) : n.prev = null ↔ p = a := by
  obtain ⟨-, -, apart, proper, -⟩ := list.parts
  obtain rfl := Option.some.inj (here.symm.trans list.node)
  cases xs with
  | nil => exact iff_of_true rfl list.segment.1
  | cons x xs =>
    refine iff_of_false (fun none => ?_) fun first => ?_
    · rw [List.map_cons, List.mem_cons, not_or] at proper
      change lastAddress x.1 xs = null at none
      by_cases last : lastAddress x.1 xs = x.1
      · exact proper.1 (none.symm.trans last)
      · exact proper.2 (none ▸ lastAddress_mem last)
    · exact apart x.1 List.mem_cons_self a List.mem_cons_self (list.segment.1.symm.trans first)

end LinkedList

end Segments

end Library
