import Mathlib.Data.List.InsertIdx
import Neutrino.Lists.Traversal

namespace Neutrino.Lists

open Library

/-- What `lmalloc` returns is not in use. -/
structure Fresh (s : Memory) : Prop where
  distinct : (s.supply.map Prod.fst).Nodup
  unused : ∀ a ∈ s.supply.map Prod.fst, a ≠ nullptr ∧ s.cells a = none

/-- Every node that was allocated before and is not among `touched` is as it was. -/
def Kept (touched : List W64) (s s' : Memory) : Prop :=
  ∀ a, s.cells a ≠ none → a ∉ touched → s'.cells a = s.cells a

/-- Apart from the nodes that were made and the ones of `touched` nothing is written. -/
def Local (touched : List W64) (s s' : Memory) : Prop :=
  ∃ made, s.supply = made ++ s'.supply ∧
    ∀ a, a ∉ made.map Prod.fst → a ∉ touched → s'.cells a = s.cells a

/-- The memory after an operation that turns one list into another, of the same nodes and new ones: what
    is allocated then is the new list and what was allocated outside the old one. -/
structure Relinked (nodes nodes' : List (W64 × W64)) (s : Memory) (q : W64) (s' : Memory) : Prop where
  list : LinkedList s'.cells nullptr q nodes'
  effect : Local (addresses nodes) s s'
  within : ∀ a ∈ addresses nodes', a ∈ addresses nodes ∨ s.cells a = none
  trades : ∀ a, s'.cells a ≠ none ↔ a ∈ addresses nodes' ∨ s.cells a ≠ none ∧ a ∉ addresses nodes

namespace Local

variable {touched : List W64} {s s' s'' : Memory}

theorem refl : Local touched s s := ⟨[], rfl, fun _ _ _ => rfl⟩

theorem trans (first : Local touched s s') (second : Local touched s' s'') : Local touched s s'' := by
  rcases first with ⟨made, supply, same⟩
  rcases second with ⟨made', supply', same'⟩
  refine ⟨made ++ made', by rw [supply, supply', List.append_assoc], fun a fresh outside => ?_⟩
  rw [List.map_append, List.mem_append, not_or] at fresh
  rw [same' a fresh.2 outside, same a fresh.1 outside]

theorem kept (effect : Local touched s s') (fresh : Fresh s) : Kept touched s s' := by
  rcases effect with ⟨made, supply, same⟩
  intro a allocated outside
  refine same a (fun member => allocated (fresh.unused a ?_).2) outside
  rw [supply, List.map_append]
  exact List.mem_append_left _ member

theorem fresh (effect : Local touched s s') (fresh : Fresh s) (used : ∀ a ∈ touched, s.cells a ≠ none) :
    Fresh s' := by
  rcases effect with ⟨made, supply, same⟩
  rcases fresh with ⟨distinct, unused⟩
  rw [supply, List.map_append] at distinct unused
  rcases List.nodup_append.mp distinct with ⟨-, distinct, apart⟩
  refine ⟨distinct, fun a member => ?_⟩
  rcases unused a (List.mem_append_right _ member) with ⟨proper, none⟩
  refine ⟨proper, ?_⟩
  rw [same a (fun early => apart a early a member rfl) (fun inside => used a inside none), none]

end Local

section Writing

variable {s : Memory} {p a n data : W64} {junk : ListNode} {rest : List (W64 × ListNode)}
  {nodes : List (W64 × W64)} {fuel : Nat}

theorem Fresh.head_unused (fresh : Fresh s) (supply : s.supply = (n, junk) :: rest) :
    n ≠ nullptr ∧ s.cells n = none := fresh.unused n (by rw [supply]; exact List.mem_cons_self)

theorem unused_apart {before after : W64} (segment : Segment s.cells before p nodes after) (none : s.cells n = none) :
    n ∉ addresses nodes := by
  intro member
  rcases segment.allocated member with ⟨found, here⟩
  rw [none] at here
  cases here

theorem nodes_used (list : LinkedList s.cells nullptr p nodes) : ∀ a ∈ addresses nodes, s.cells a ≠ none := by
  intro a member none
  exact unused_apart list.segment none member

theorem create_keeps (list : LinkedList s.cells nullptr p nodes) (none : s.cells n = none)
    (rest : List (W64 × ListNode)) (found : ListNode) :
    LinkedList (Memory.put ⟨s.cells, rest⟩ n found).cells nullptr p nodes :=
  list.congr fun c member => Memory.put_ne (by rintro rfl; exact nodes_used list c member none)

theorem create_local (supply : s.supply = (n, junk) :: rest) (found : ListNode) (touched : List W64) :
    Local touched s (Memory.put ⟨s.cells, rest⟩ n found) := by
  refine ⟨[(n, junk)], supply, fun c made _ => Memory.put_ne ?_⟩
  simpa using made

theorem create_trades (rest : List (W64 × ListNode)) (n : W64) (found : ListNode) (a : W64) :
    (Memory.put ⟨s.cells, rest⟩ n found).cells a ≠ none ↔
      a ∈ addresses [(n, data)] ∨ s.cells a ≠ none ∧ a ∉ addresses [] := by
  rw [Memory.put_cells]
  by_cases same : a = n
  · simp [same]
  · simp [same]

theorem listPrepend_yields (list : LinkedList s.cells nullptr p nodes) (fresh : Fresh s)
    (supply : s.supply = (n, junk) :: rest) :
    Yields s (listPrepend p data) (Relinked nodes ((n, data) :: nodes) s) := by
  rcases fresh.head_unused supply with ⟨proper, none⟩
  have apart := unused_apart list.segment none
  have used := nodes_used list
  rw [listPrepend, Yields, bind_eq (listCreateNode_eq supply)]
  rcases nodes with _ | ⟨⟨b, x⟩, nodes⟩
  · have empty : p = nullptr := list.nil_iff.mpr rfl
    simp only [listIsEmpty, empty, BEq.rfl, ↓reduceIte]
    refine ⟨n, _, rfl, ⟨.single (if_pos rfl), List.nodup_singleton n, ?_⟩, ?_, ?_, ?_⟩
    · simpa using Ne.symm proper
    · exact create_local supply _ _
    · simpa using none
    · exact create_trades _ _ _
  · rcases list with ⟨⟨rfl, next, node, others⟩, distinct, nonnull⟩
    simp only [addresses, List.map_cons, List.mem_cons, not_or, List.nodup_cons] at apart distinct nonnull used
    have more : p ≠ nullptr := Ne.symm nonnull.1
    have other : p ≠ n := Ne.symm apart.1
    simp only [listIsEmpty, beq_iff_eq, more, ↓reduceIte]
    rw [bind_eq (setNext_eq (if_pos rfl) _), Memory.put_put,
      bind_eq (setPrev_eq (by rw [Memory.put_cells, if_neg other, node]) _)]
    refine ⟨n, _, rfl, ⟨.cons ?_ (.cons ?_ (others.congr ?_)), ?_, ?_⟩, ?_, ?_, ?_⟩
    · rw [Memory.put_cells, if_neg apart.1, Memory.put_cells, if_pos rfl]
    · rw [Memory.put_cells, if_pos rfl]
    · intro c member
      rw [Memory.put_cells, if_neg (by rintro rfl; exact distinct.1 member), Memory.put_cells,
        if_neg (by rintro rfl; exact apart.2 member)]
    · simp only [List.map_cons, List.nodup_cons, List.mem_cons, not_or]
      exact ⟨apart, distinct⟩
    · simp only [List.map_cons, List.mem_cons, not_or]
      exact ⟨Ne.symm proper, nonnull⟩
    · refine ⟨[(n, junk)], supply, fun c made outside => ?_⟩
      simp only [List.map_cons, List.map_nil, List.mem_cons, List.not_mem_nil, or_false, addresses,
        not_or] at made outside
      rw [Memory.put_cells, if_neg outside.1, Memory.put_cells, if_neg made]
    · simp only [List.map_cons, List.mem_cons]
      grind
    · intro c
      simp only [List.map_cons, List.mem_cons]
      grind [Memory.put_cells]

theorem listAppend_yields (list : LinkedList s.cells nullptr p nodes) (fresh : Fresh s)
    (supply : s.supply = (n, junk) :: rest) (enough : nodes.length < fuel) :
    Yields s (listAppend fuel p data) (Relinked nodes (nodes ++ [(n, data)]) s) := by
  rcases fresh.head_unused supply with ⟨proper, none⟩
  have used := nodes_used list
  rw [listAppend, Yields, bind_eq (listCreateNode_eq supply)]
  rcases List.eq_nil_or_concat nodes with rfl | ⟨xs, ⟨b, y⟩, rfl⟩
  · have empty : p = nullptr := list.nil_iff.mpr rfl
    simp only [listIsEmpty, empty, BEq.rfl, ↓reduceIte]
    refine ⟨n, _, rfl, ⟨.single (if_pos rfl), List.nodup_singleton n, ?_⟩, ?_, ?_, ?_⟩
    · simpa using Ne.symm proper
    · exact create_local supply _ _
    · simpa using none
    · exact create_trades _ _ _
  · rw [List.concat_eq_append] at list enough used ⊢
    have more : p ≠ nullptr := fun empty => absurd (list.nil_iff.mp empty) (by simp)
    simp only [listIsEmpty, beq_iff_eq, more, ↓reduceIte]
    have apart := unused_apart list.segment none
    have kept := create_keeps list none rest ⟨data, nullptr, nullptr⟩
    rw [List.length_append, List.length_singleton] at enough
    rw [bind_eq (lastNode_eq kept.segment kept.proper (by omega)), bind_eq (setNext_eq kept.segment.last_node _)]
    have distinct := list.distinct
    have nonnull := list.proper
    simp only [addresses, List.map_append, List.map_cons, List.map_nil, List.nodup_append, List.mem_append,
      List.mem_cons, List.not_mem_nil, or_false, not_or] at apart distinct nonnull used
    rw [bind_eq (setPrev_eq (by rw [Memory.put_cells, if_neg apart.2, Memory.put_cells, if_pos rfl]) _)]
    refine ⟨p, _, rfl, ⟨(list.segment.relink_last (q := n) ?_ ?_).append (.single ?_), ?_, ?_⟩, ?_, ?_, ?_⟩
    · grind [Memory.put_cells]
    · grind [Memory.put_cells]
    · rw [lastAddress_snoc]
      grind [Memory.put_cells]
    · simp only [List.map_append, List.map_cons, List.map_nil]
      grind
    · simp only [List.map_append, List.map_cons, List.map_nil]
      grind
    · refine ⟨[(n, junk)], supply, fun c made outside => ?_⟩
      simp only [addresses, List.map_append, List.map_cons, List.map_nil] at made outside
      grind [Memory.put_cells]
    · simp only [addresses, List.map_append, List.map_cons, List.map_nil, List.mem_append, List.mem_cons]
      grind
    · intro c
      simp only [addresses, List.map_append, List.map_cons, List.map_nil, List.mem_append, List.mem_cons,
        List.not_mem_nil, or_false]
      grind [Memory.put_cells]

theorem insertHere_yields {b x y : W64} {before after : List (W64 × W64)}
    (list : LinkedList s.cells nullptr p (before ++ (b, y) :: (a, x) :: after)) (fresh : Fresh s)
    (supply : s.supply = (n, junk) :: rest) (index : Int) :
    Yields s (insertLoop p index data (fuel + 1) a index) fun r s' =>
      LinkedList s'.cells nullptr r (before ++ (b, y) :: (n, data) :: (a, x) :: after) ∧
        Local (addresses (before ++ (b, y) :: (a, x) :: after)) s s' := by
  rcases fresh.head_unused supply with ⟨proper, none⟩
  have apart := unused_apart list.segment none
  have kept := create_keeps list none rest ⟨data, nullptr, nullptr⟩
  have distinct := list.distinct
  have nonnull := list.proper
  rcases kept.segment.split_pair with ⟨first, left, next, right, others⟩
  simp only [addresses, List.map_append, List.map_cons, List.nodup_append, List.nodup_cons, List.mem_append,
    List.mem_cons, not_or] at apart distinct nonnull ⊢
  have more : a ≠ nullptr := Ne.symm nonnull.2.2.1
  simp only [insertLoop, listIsNotNull, bne_iff_ne, ne_eq, more, not_false_eq_true, ↓reduceIte]
  rw [Yields, bind_eq (listCreateNode_eq supply), bind_eq (load_eq right), bind_eq (load_eq left),
    bind_eq (setPrev_eq right _), bind_eq (load_eq (by rw [Memory.put_ne (by grind), left])),
    bind_eq (setNext_eq (by rw [Memory.put_ne (by grind)]; exact if_pos rfl) _),
    bind_eq (setPrev_eq (if_pos rfl) _), Memory.put_put,
    bind_eq (setNext_eq (by rw [Memory.put_ne (by grind), Memory.put_ne (by grind), left]) _)]
  refine ⟨p, _, rfl, ⟨(first.congr ?_).append (.cons ?_ (.cons ?_ (.cons ?_ (others.congr ?_)))), ?_, ?_⟩,
    [(n, junk)], supply, ?_⟩
  · grind [Memory.put_cells]
  · exact if_pos rfl
  · grind [Memory.put_cells]
  · grind [Memory.put_cells]
  · grind [Memory.put_cells]
  · simp only [List.map_append, List.map_cons]
    grind
  · simp only [List.map_append, List.map_cons]
    grind
  · grind [Memory.put_cells]

theorem walk_on {c : W64 × W64} {done rest : List (W64 × W64)} (list : LinkedList s.cells nullptr p (done ++ c :: rest))
    (small : done.length + 1 < 2 ^ 31) :
    c.1 ≠ nullptr ∧ toInt32 ((done.length : Int) + 1) = (done ++ [c]).length := by
  rw [List.length_append, List.length_singleton]
  refine ⟨fun zero => list.proper ?_, toInt32_of_small (done.length + 1) small⟩
  simp [← zero]

theorem insertLoop_skips {q x : W64} {k : Nat} (done : List (W64 × W64)) {todo after : List (W64 × W64)}
    (list : LinkedList s.cells nullptr p (done ++ (todo ++ (a, x) :: after)))
    (here : ∃ z more, todo ++ (a, x) :: after = (q, z) :: more) (fresh : Fresh s)
    (stock : todo.length ≤ s.supply.length) (ahead : done.length + todo.length ≤ k) (small : k < 2 ^ 31) :
    ∃ s', insertLoop p k data (todo.length + fuel) q done.length s = insertLoop p k data fuel a (done ++ todo).length s' ∧
      LinkedList s'.cells nullptr p (done ++ (todo ++ (a, x) :: after)) ∧
      Local (addresses (done ++ (todo ++ (a, x) :: after))) s s' ∧ s'.supply = s.supply.drop todo.length ∧
      (todo ≠ [] → ∃ n, s.cells n = none ∧ s'.cells n = some ⟨data, nullptr, nullptr⟩) := by
  rcases here with ⟨z, more, here⟩
  induction todo generalizing done s q z more with
  | nil =>
    have position : q = a := (Prod.mk.inj (List.cons.inj here).1).1.symm
    refine ⟨s, ?_, list, .refl, rfl, fun some => absurd rfl some⟩
    simp [position]
  | cons c todo ih =>
    cases supply : s.supply with
    | nil =>
      rw [supply] at stock
      cases stock
    | cons made rest =>
      have position : q = c.1 := congrArg Prod.fst (List.cons.inj here).1.symm
      rcases fresh.head_unused supply with ⟨-, none⟩
      have kept := create_keeps list none rest ⟨data, nullptr, nullptr⟩
      have effect := create_local supply ⟨data, nullptr, nullptr⟩ (addresses (done ++ (c :: todo ++ (a, x) :: after)))
      have fresh' := effect.fresh fresh (nodes_used list)
      rcases kept.segment.split_cons with ⟨-, next, node, others⟩
      rcases others.head_eq with ⟨z', more', head⟩
      rw [List.length_cons] at ahead
      rcases walk_on list (by omega) with ⟨present, step⟩
      have behind : ¬ (done.length : Int) = k := by omega
      have shape : ∀ tail, done ++ (c :: todo ++ tail) = (done ++ [c]) ++ (todo ++ tail) := by simp
      rw [supply, List.length_cons, List.length_cons] at stock
      simp only [shape] at kept effect ⊢
      obtain ⟨s', skipped, list', effect', left, -⟩ := ih _ kept fresh' (by simpa using stock) (by simp; omega) z' more' head
      refine ⟨s', ?_, list', effect.trans effect', left, fun _ => ⟨made.1, none, ?_⟩⟩
      · rw [List.append_cons, ← skipped, List.length_cons, Nat.succ_add, position]
        simp only [insertLoop, listIsNotNull, bne_iff_ne, ne_eq, present, not_false_eq_true, ↓reduceIte, behind]
        rw [bind_eq (listCreateNode_eq supply), bind_eq (load_eq node), step]
      · refine (effect'.kept fresh' made.1 ?_ ?_).trans (if_pos rfl)
        · rw [Memory.put_cells, if_pos rfl]
          exact Option.some_ne_none _
        · rw [← shape]
          exact unused_apart list.segment none

theorem insertLoop_yields {q x : W64} (data : W64) (done : List (W64 × W64)) {todo after : List (W64 × W64)}
    (list : LinkedList s.cells nullptr p (done ++ (todo ++ (a, x) :: after)))
    (here : ∃ z more, todo ++ (a, x) :: after = (q, z) :: more) (inner : done ++ todo ≠ []) (fresh : Fresh s)
    (stock : todo.length < s.supply.length) (enough : todo.length < fuel)
    (small : done.length + todo.length < 2 ^ 31) :
    Yields s (insertLoop p ((done.length + todo.length : Nat) : Int) data fuel q done.length) fun r s' =>
      (∃ n, LinkedList s'.cells nullptr r (done ++ (todo ++ (n, data) :: (a, x) :: after))) ∧
        Local (addresses (done ++ (todo ++ (a, x) :: after))) s s' ∧
        (todo ≠ [] → ∃ n, s.cells n = none ∧ s'.cells n = some ⟨data, nullptr, nullptr⟩) := by
  obtain ⟨fuel, rfl⟩ : ∃ k, fuel = todo.length + (k + 1) := ⟨fuel - todo.length - 1, by omega⟩
  obtain ⟨s1, skipped, list', effect, left, leaves⟩ := insertLoop_skips done list here fresh (Nat.le_of_lt stock)
    (Nat.le_refl _) small
  have fresh' := effect.fresh fresh (nodes_used list)
  cases supply : s1.supply with
  | nil => exact absurd (List.drop_eq_nil_iff.mp (left.symm.trans supply)) (Nat.not_le_of_lt stock)
  | cons made rest =>
    rw [Yields, skipped, ← List.length_append]
    simp only [← List.append_assoc] at list list' effect ⊢
    rcases List.eq_nil_or_concat (done ++ todo) with none | ⟨before, ⟨b, y⟩, split⟩
    · exact absurd none inner
    rw [split, List.concat_eq_append] at list list' effect ⊢
    simp only [List.append_assoc, List.singleton_append] at list list' effect ⊢
    refine (insertHere_yields list' fresh' supply _).mono ?_
    rintro r s' ⟨inserted, others⟩
    refine ⟨⟨made.1, inserted⟩, effect.trans others, fun skips => ?_⟩
    obtain ⟨n, none, there⟩ := leaves skips
    refine ⟨n, none, (others.kept fresh' n ?_ (unused_apart list.segment none)).trans there⟩
    rw [there]
    exact Option.some_ne_none _

theorem listDeleteHead_yields (list : LinkedList s.cells nullptr p nodes) :
    Yields s (listDeleteHead p) (Relinked nodes nodes.tail s) := by
  have used := nodes_used list
  rw [listDeleteHead, Yields]
  rcases nodes with _ | ⟨⟨b, x⟩, _ | ⟨⟨c, z⟩, nodes⟩⟩
  · have empty : p = nullptr := list.nil_iff.mpr rfl
    simp only [listIsEmpty, empty, BEq.rfl, ↓reduceIte]
    exact ⟨nullptr, s, rfl, .empty, .refl, by simp, by simp⟩
  · have more : p ≠ nullptr := fun empty => absurd (list.nil_iff.mp empty) (by simp)
    rcases list.segment with ⟨rfl, next, node, rfl⟩
    simp only [listIsEmpty, beq_iff_eq, more, ↓reduceIte]
    rw [bind_eq (load_eq node)]
    simp only [↓reduceIte]
    rw [bind_eq (lfree_eq node more)]
    refine ⟨nullptr, _, rfl, .empty, ⟨[], rfl, fun d _ outside => ?_⟩, ?_, fun d => ?_⟩
    · rw [Memory.free_cells, if_neg (by simpa using outside)]
    · exact fun d member => absurd member List.not_mem_nil
    · rw [Memory.free_cells]
      by_cases same : d = p
      · simp [same]
      · simp [same]
  · have more : p ≠ nullptr := fun empty => absurd (list.nil_iff.mp empty) (by simp)
    rcases list with ⟨⟨rfl, follower, first, rfl, next, second, others⟩, distinct, nonnull⟩
    simp only [List.map_cons, List.nodup_cons, List.mem_cons, not_or] at distinct nonnull used
    simp only [listIsEmpty, beq_iff_eq, more, ↓reduceIte]
    rw [bind_eq (load_eq first)]
    simp only [Ne.symm nonnull.2.1, ↓reduceIte]
    rw [bind_eq (load_eq first), bind_eq (load_eq second), bind_eq (lfree_eq first more),
      bind_eq (setPrev_eq (by rw [Memory.free_cells, if_neg (Ne.symm distinct.1.1), second]) _)]
    refine ⟨follower, _, rfl, ⟨.cons (if_pos rfl) (others.congr ?_), ?_, ?_⟩, ⟨[], rfl, ?_⟩, ?_, fun d => ?_⟩
    · grind [Memory.put_cells, Memory.free_cells]
    · simpa using distinct.2
    · simpa using nonnull.2
    · grind [Memory.put_cells, Memory.free_cells]
    · exact fun d member => .inl (List.mem_cons_of_mem _ member)
    · simp only [List.tail_cons, List.map_cons, List.mem_cons]
      grind [Memory.put_cells, Memory.free_cells]

theorem listConcatenate_yields {q : W64} {others : List (W64 × W64)} (list : LinkedList s.cells nullptr p nodes)
    (list' : LinkedList s.cells nullptr q others) (some : nodes ≠ []) (some' : others ≠ [])
    (disjoint : List.Disjoint (addresses nodes) (addresses others)) (enough : nodes.length < fuel) :
    Yields s (listConcatenate fuel p q) fun r s' => LinkedList s'.cells nullptr r (nodes ++ others) ∧
      Local (addresses nodes ++ addresses others) s s' := by
  rcases List.eq_nil_or_concat nodes with rfl | ⟨xs, ⟨b, y⟩, rfl⟩
  · exact absurd rfl some
  rcases others with _ | ⟨⟨c, z⟩, others⟩
  · exact absurd rfl some'
  rw [List.concat_eq_append] at list disjoint enough ⊢
  have distinct := list.distinct.append list'.distinct disjoint
  have proper := not_or.mpr ⟨list.proper, list'.proper⟩
  rw [← List.mem_append] at proper
  rw [listConcatenate, Yields, bind_eq (listGetTail_eq list enough), lastAddress_snoc,
    bind_eq (setNext_eq list.segment.last_node _)]
  rcases list'.segment with ⟨rfl, next, node, segment⟩
  have facts := distinct
  simp only [List.map_append, List.map_cons, List.map_nil, List.nodup_append, List.nodup_cons, List.mem_append,
    List.mem_cons, List.not_mem_nil, or_false] at facts
  rw [bind_eq (setPrev_eq (by rw [Memory.put_ne (by grind), node]) _)]
  refine ⟨p, _, rfl, ⟨(list.segment.relink_last (q := q) ?_ ?_).append (.cons ?_ (segment.congr ?_)), ?_, ?_⟩,
    [], rfl, ?_⟩
  · grind [Memory.put_cells]
  · grind [Memory.put_cells]
  · rw [lastAddress_snoc]
    exact if_pos rfl
  · grind [Memory.put_cells]
  · rwa [List.map_append]
  · rwa [List.map_append]
  · intro d _ outside
    simp only [addresses, List.map_append, List.map_cons, List.map_nil, List.mem_append, List.mem_cons] at outside
    grind [Memory.put_cells]

theorem deleteHere_yields {b x y : W64} {before after : List (W64 × W64)}
    (list : LinkedList s.cells nullptr p (before ++ (b, y) :: (a, x) :: after)) (index : Int) :
    Yields s (deleteLoop p index (fuel + 1) a index)
      (Relinked (before ++ (b, y) :: (a, x) :: after) (before ++ (b, y) :: after) s) := by
  have used := nodes_used list
  have distinct := list.distinct
  have nonnull := list.proper
  rcases list.segment.split_pair with ⟨first, left, next, right, others⟩
  simp only [addresses, List.map_append, List.map_cons, List.nodup_append, List.nodup_cons, List.mem_append,
    List.mem_cons, not_or] at distinct nonnull used ⊢
  have more : a ≠ nullptr := Ne.symm nonnull.2.2.1
  have back : b ≠ nullptr := Ne.symm nonnull.2.1
  simp only [deleteLoop, listIsNotNull, bne_iff_ne, ne_eq, more, not_false_eq_true, ↓reduceIte]
  rw [Yields, bind_eq (listHasNext_eq right)]
  rcases after with _ | ⟨⟨c, z⟩, after⟩
  · -- the last node: only the one before it changes
    cases others
    simp only [bne_self_eq_false, Bool.false_eq_true, ↓reduceIte]
    rw [bind_eq (listHasPrev_eq right)]
    simp only [bne_iff_ne, ne_eq, back, not_false_eq_true, ↓reduceIte]
    rw [bind_eq (load_eq right), bind_eq (load_eq right), bind_eq (setNext_eq left _),
      bind_eq (lfree_eq (by rw [Memory.put_ne (by grind), right]) more)]
    refine ⟨p, _, rfl, ⟨(first.congr ?_).append (.single ?_), ?_, ?_⟩, ⟨[], rfl, ?_⟩, ?_, fun d => ?_⟩
    · grind [Memory.put_cells, Memory.free_cells]
    · grind [Memory.put_cells, Memory.free_cells]
    · simp only [List.map_append, List.map_cons, List.map_nil]
      grind
    · simp only [List.map_append, List.map_cons, List.map_nil]
      grind
    · grind [Memory.put_cells, Memory.free_cells]
    · simp only [List.map_append, List.map_cons, List.map_nil, List.mem_append, List.mem_cons]
      grind
    · simp only [addresses, List.map_append, List.map_cons, List.map_nil, List.mem_append, List.mem_cons]
      grind [Memory.put_cells, Memory.free_cells]
  · rcases others with ⟨rfl, next', follower, others⟩
    simp only [List.map_cons, List.nodup_cons, List.mem_cons, not_or] at distinct nonnull used ⊢
    simp only [bne_iff_ne, ne_eq, Ne.symm nonnull.2.2.2.1, not_false_eq_true, ↓reduceIte]
    rw [bind_eq (load_eq right), bind_eq (load_eq right), bind_eq (setPrev_eq follower _),
      bind_eq (listHasPrev_eq (by rw [Memory.put_ne (by grind), right]))]
    simp only [bne_iff_ne, ne_eq, back, not_false_eq_true, ↓reduceIte]
    rw [bind_eq (load_eq (by rw [Memory.put_ne (by grind), right])),
      bind_eq (load_eq (by rw [Memory.put_ne (by grind), right])),
      bind_eq (setNext_eq (by rw [Memory.put_ne (by grind), left]) _),
      bind_eq (lfree_eq (by rw [Memory.put_ne (by grind), Memory.put_ne (by grind), right]) more)]
    refine ⟨p, _, rfl, ⟨(first.congr ?_).append (.cons ?_ (.cons ?_ (others.congr ?_))), ?_, ?_⟩, ⟨[], rfl, ?_⟩, ?_, fun d => ?_⟩
    · grind [Memory.put_cells, Memory.free_cells]
    · grind [Memory.put_cells, Memory.free_cells]
    · grind [Memory.put_cells, Memory.free_cells]
    · grind [Memory.put_cells, Memory.free_cells]
    · simp only [List.map_append, List.map_cons]
      grind
    · simp only [List.map_append, List.map_cons]
      grind
    · grind [Memory.put_cells, Memory.free_cells]
    · simp only [List.map_append, List.map_cons, List.mem_append, List.mem_cons]
      grind
    · simp only [addresses, List.map_append, List.map_cons, List.mem_append, List.mem_cons]
      grind [Memory.put_cells, Memory.free_cells]

theorem deleteLoop_yields {q x : W64} (done : List (W64 × W64)) {todo after : List (W64 × W64)}
    (list : LinkedList s.cells nullptr p (done ++ (todo ++ (a, x) :: after)))
    (here : ∃ z more, todo ++ (a, x) :: after = (q, z) :: more) (inner : done ++ todo ≠ [])
    (enough : todo.length < fuel) (small : done.length + todo.length < 2 ^ 31) :
    Yields s (deleteLoop p ((done.length + todo.length : Nat) : Int) fuel q done.length)
      (Relinked (done ++ (todo ++ (a, x) :: after)) (done ++ (todo ++ after)) s) := by
  rcases here with ⟨z, more, here⟩
  induction todo generalizing done fuel q z more with
  | nil =>
    cases fuel with
    | zero => cases enough
    | succ fuel =>
      rcases List.eq_nil_or_concat done with rfl | ⟨before, ⟨b, y⟩, rfl⟩
      · exact absurd rfl inner
      have position : q = a := (Prod.mk.inj (List.cons.inj here).1).1.symm
      simp only [List.concat_eq_append, List.append_assoc, List.nil_append, List.singleton_append] at list ⊢
      rw [position]
      exact deleteHere_yields list _
  | cons c todo ih =>
    cases fuel with
    | zero => cases enough
    | succ fuel =>
      have position : q = c.1 := congrArg Prod.fst (List.cons.inj here).1.symm
      rcases list.segment.split_cons with ⟨-, next, node, others⟩
      rcases others.head_eq with ⟨z', more', head⟩
      have shape : ∀ tail, done ++ (c :: todo ++ tail) = (done ++ [c]) ++ (todo ++ tail) := by simp
      have count : done.length + (c :: todo).length = (done ++ [c]).length + todo.length := by simp; omega
      have behind : ¬ (done.length : Int) = ((done ++ [c]).length + todo.length : Nat) := by simp; omega
      rw [count] at small
      rw [List.length_cons] at enough
      rcases walk_on list (by simp at small; omega) with ⟨present, step⟩
      rw [shape] at list
      simp only [deleteLoop, listIsNotNull, bne_iff_ne, ne_eq, position, present, not_false_eq_true, ↓reduceIte, shape, count,
        behind]
      rw [Yields, bind_eq (load_eq node), step]
      exact ih _ list (by simp) (show todo.length < fuel by omega) small z' more' head

theorem insertIdx_append_length {α : Type} (xs ys : List α) (y : α) :
    (xs ++ ys).insertIdx xs.length y = xs ++ y :: ys := by
  induction xs with
  | nil => rfl
  | cons x xs ih => rw [List.cons_append, List.length_cons, List.insertIdx_succ_cons, ih, List.cons_append]

theorem exists_split_at {α : Type} {xs : List α} {i : Nat} (inside : i < xs.length) :
    ∃ before x after, xs = before ++ x :: after ∧ before.length = i := by
  refine ⟨xs.take i, xs[i], xs.drop (i + 1), ?_, List.length_take_of_le (Nat.le_of_lt inside)⟩
  rw [← List.drop_eq_getElem_cons, List.take_append_drop]

variable (list : LinkedList s.cells nullptr p nodes)
include list

theorem listInsertAt_eq {i : Int} (enough : nodes.length < fuel) :
    listInsertAt fuel p i data s = if i ≤ toInt32 nodes.length ∧ i ≥ 0 then
      if i = 0 then listPrepend p data s
      else if i = toInt32 nodes.length then listAppend fuel p data s
      else insertLoop p i data fuel p 0 s
    else some (p, s) := by
  have size := listGetSize_wraps list enough
  rw [listInsertAt, bind_eq size]
  split
  · by_cases first : i = 0
    · rw [if_pos first, first]
      rfl
    · simp only [listIsFirst, listIsLast, beq_iff_eq, first, ↓reduceIte, bind_assoc, pure_bind]
      rw [bind_eq size]
      split <;> rfl
  · rfl

theorem listInsertAt_yields {i : Nat} (fresh : Fresh s) (small : nodes.length < 2 ^ 31) (enough : nodes.length < fuel)
    (stock : i < s.supply.length)
    (inside : i ≤ nodes.length) :
    Yields s (listInsertAt fuel p i data) fun q s' =>
      (∃ n, LinkedList s'.cells nullptr q (nodes.insertIdx i (n, data))) ∧ Local (addresses nodes) s s' := by
  have counted := toInt32_of_small nodes.length small
  cases supply : s.supply with
  | nil =>
    rw [supply] at stock
    cases stock
  | cons made rest =>
    rw [Yields, listInsertAt_eq list enough, if_pos (by omega)]
    by_cases first : i = 0
    · rw [first, if_pos Int.natCast_zero]
      simp only [List.insertIdx_zero]
      exact Yields.mono (listPrepend_yields list fresh supply) fun q s' holds => ⟨⟨made.1, holds.list⟩, holds.effect⟩
    · rw [if_neg (by omega)]
      by_cases last : i = nodes.length
      · rw [if_pos (by omega), last]
        simp only [List.insertIdx_length_self]
        exact Yields.mono (listAppend_yields list fresh supply enough) fun q s' holds =>
          ⟨⟨made.1, holds.list⟩, holds.effect⟩
      · rw [if_neg (by omega)]
        rcases exists_split_at (Nat.lt_of_le_of_ne inside last) with ⟨todo, ⟨a, x⟩, after, rfl, rfl⟩
        rw [List.length_append] at small enough
        have inner : [] ++ todo ≠ [] := fun none => first (by simpa using congrArg List.length none)
        have yields := insertLoop_yields data [] list list.segment.head_eq inner fresh stock
          (show todo.length < fuel by omega) (by rw [List.length_nil]; omega)
        rw [List.length_nil, Nat.zero_add] at yields
        simp only [insertIdx_append_length]
        exact Yields.mono yields fun q s' holds => ⟨holds.1, holds.2.1⟩

theorem listDeleteAt_eq {i : Int} (enough : nodes.length < fuel) :
    listDeleteAt fuel p i s = if i ≤ toInt32 nodes.length ∧ i ≥ 0 then
      if i = 0 then listDeleteHead p s
      else if i = toInt32 nodes.length then listDeleteTail fuel p s
      else deleteLoop p i fuel p 0 s
    else some (p, s) := by
  have size := listGetSize_wraps list enough
  rw [listDeleteAt, bind_eq size]
  split
  · by_cases first : i = 0
    · rw [if_pos first, first]
      rfl
    · simp only [listIsFirst, listIsLast, beq_iff_eq, first, ↓reduceIte, bind_assoc, pure_bind]
      rw [bind_eq size]
      split <;> rfl
  · rfl

theorem listDeleteAt_inner {i : Nat} (enough : nodes.length < fuel) (later : 0 < i)
    (inside : (i : Int) < toInt32 nodes.length) :
    Yields s (listDeleteAt fuel p i) (Relinked nodes (nodes.eraseIdx i) s) := by
  have wrapped := toInt32_le nodes.length
  rw [Yields, listDeleteAt_eq list enough, if_pos (by omega), if_neg (by omega), if_neg (by omega)]
  have index : i < nodes.length := by omega
  have small : i < 2 ^ 31 := by omega
  clear wrapped inside
  rcases exists_split_at index with ⟨todo, ⟨a, x⟩, after, rfl, rfl⟩
  rw [List.length_append] at enough
  have inner : [] ++ todo ≠ [] := fun none => absurd (congrArg List.length none) (by simpa using Nat.ne_of_gt later)
  have yields := deleteLoop_yields [] list list.segment.head_eq inner
    (show todo.length < fuel by omega) (by rw [List.length_nil]; omega)
  rw [List.length_nil, Nat.zero_add] at yields
  rw [List.eraseIdx_append_of_length_le (Nat.le_refl _), Nat.sub_self, List.eraseIdx_zero]
  exact yields

theorem listDeleteAt_yields {i : Nat} (small : nodes.length < 2 ^ 31) (enough : nodes.length < fuel)
    (inside : i < nodes.length) :
    Yields s (listDeleteAt fuel p i) (Relinked nodes (nodes.eraseIdx i) s) := by
  have counted := toInt32_of_small nodes.length small
  by_cases first : i = 0
  · rw [first, Yields, listDeleteAt_eq list enough, if_pos (by omega), if_pos Int.natCast_zero, List.eraseIdx_zero]
    exact listDeleteHead_yields list
  · exact listDeleteAt_inner list enough (by omega) (by omega)

end Writing

/-- `p` is the head of a well-formed list with the given contents. -/
def Heads (s : Memory) (p : W64) (contents : List W64) : Prop :=
  ∃ nodes, LinkedList s.cells nullptr p nodes ∧ nodes.map Prod.snd = contents

/-- The call comes back with a list of the given contents, and writes to no other node. -/
def Gives (s : Memory) (touched : List W64) (call : ListM W64) (contents : List W64) : Prop :=
  Yields s call fun q s' => Heads s' q contents ∧ Kept touched s s'

/-- The call comes back with the value and writes nothing. -/
def Reads {α : Type} (s : Memory) (call : ListM α) (value : α) : Prop := call s = some (value, s)

/-- A null pointer if there is no such node. -/
def addressOr (node : Option (W64 × W64)) : W64 := (node.map Prod.fst).getD nullptr

theorem Gives.of_yields {s : Memory} {nodes : List (W64 × W64)} {call : ListM W64} {touched : List W64}
    (fresh : Fresh s)
    (yields : Yields s call fun q s' => LinkedList s'.cells nullptr q nodes ∧ Local touched s s') :
    Gives s touched call (nodes.map Prod.snd) :=
  yields.mono fun _ _ holds => ⟨⟨nodes, holds.1, rfl⟩, holds.2.kept fresh⟩

theorem Gives.of_relinked {s : Memory} {nodes nodes' : List (W64 × W64)} {call : ListM W64} (fresh : Fresh s)
    (yields : Yields s call (Relinked nodes nodes' s)) : Gives s (addresses nodes) call (nodes'.map Prod.snd) :=
  Gives.of_yields fresh (yields.mono fun _ _ holds => ⟨holds.list, holds.effect⟩)

theorem lists_are_sequences (s : Memory) (p : W64) (nodes : List (W64 × W64))
    (list : LinkedList s.cells nullptr p nodes) (small : nodes.length < 2 ^ 31 - 1) (fresh : Fresh s) (fuel : Nat)
    (enough : nodes.length < fuel) (xs : List W64) (contents : nodes.map Prod.snd = xs) :
    (∀ data, s.supply ≠ [] → Gives s (addresses nodes) (listAppend fuel p data) (xs ++ [data])) ∧
    (∀ data, s.supply ≠ [] → Gives s (addresses nodes) (listPrepend p data) (data :: xs)) ∧
    (∀ data i, i ≤ xs.length → i < s.supply.length →
      Gives s (addresses nodes) (listInsertAt fuel p i data) (xs.insertIdx i data)) ∧
    (∀ i < xs.length, Gives s (addresses nodes) (listDeleteAt fuel p i) (xs.eraseIdx i)) ∧
    Gives s (addresses nodes) (listDeleteHead p) xs.tail ∧
    (∀ q others, LinkedList s.cells nullptr q others → nodes ≠ [] → others ≠ [] →
      List.Disjoint (addresses nodes) (addresses others) →
      Gives s (addresses nodes ++ addresses others) (listConcatenate fuel p q) (xs ++ others.map Prod.snd)) ∧
    Reads s (listGetSize fuel p) xs.length ∧
    (∀ index : Int, Reads s (listFindAt fuel p index) (if 0 ≤ index then addressOr nodes[index.toNat]? else nullptr)) ∧
    (∀ data, Reads s (listFindNodeWith fuel p data) (addressOr (nodes.find? (·.2 == data)))) ∧
    Reads s (listGetTail fuel p) (addressOr nodes.getLast?) ∧
    ∀ a, a = p ∨ a ∈ addresses nodes → Reads s (listGetHead fuel a) p := by
  subst contents
  have small' : nodes.length < 2 ^ 31 := by omega
  refine ⟨?_, ?_, ?_, ?_, ?_, ?_, ?_, listFindAt_eq list small' enough, fun _ => listFindNodeWith_eq list enough,
    ?_, ?_⟩
  · intro data stock
    rcases List.exists_cons_of_ne_nil stock with ⟨made, rest, supply⟩
    simpa using Gives.of_relinked fresh (listAppend_yields list fresh supply enough)
  · intro data stock
    rcases List.exists_cons_of_ne_nil stock with ⟨made, rest, supply⟩
    simpa using Gives.of_relinked fresh (listPrepend_yields list fresh supply)
  · intro data i inside stock
    rw [List.length_map] at inside
    refine (listInsertAt_yields list fresh small' enough stock inside).mono ?_
    rintro q s' ⟨⟨n, result⟩, effect⟩
    exact ⟨⟨_, result, List.map_insertIdx ..⟩, effect.kept fresh⟩
  · intro i inside
    rw [List.length_map] at inside
    rw [List.eraseIdx_map]
    exact Gives.of_relinked fresh (listDeleteAt_yields list small' enough inside)
  · rw [← List.map_tail]
    exact Gives.of_relinked fresh (listDeleteHead_yields list)
  · intro q others list' some some' disjoint
    rw [← List.map_append (f := Prod.snd)]
    exact Gives.of_yields fresh (listConcatenate_yields list list' some some' disjoint enough)
  · rw [List.length_map]
    exact listGetSize_eq list small' enough
  · rw [addressOr, ← lastAddress_eq_getLast?]
    exact listGetTail_eq list enough
  · rintro a (rfl | member)
    · exact listGetHead_first list enough
    · exact listGetHead_member list member enough

/-- One node with the value 7, and memory for one more. -/
def singleList : Memory := ⟨fun a => if a = 1 then some ⟨7, 0, 0⟩ else none, [(2, ⟨0, 0, 0⟩)]⟩

theorem lists_are_sequences_single :
    LinkedList singleList.cells nullptr 1 [(1, 7)] ∧ Fresh singleList ∧
      Gives singleList [1] (listAppend 2 1 8) [7, 8] := by
  have list : LinkedList singleList.cells nullptr 1 [(1, 7)] :=
    ⟨.single rfl, List.nodup_singleton 1, by decide⟩
  have fresh : Fresh singleList := by
    refine ⟨List.nodup_singleton 2, fun a member => ?_⟩
    rw [List.mem_singleton.mp member]
    exact ⟨by decide, rfl⟩
  exact ⟨list, fresh, (lists_are_sequences singleList 1 [(1, 7)] list (by decide) fresh 2 (by decide) [7] rfl).1 8
    (by decide)⟩

end Neutrino.Lists
