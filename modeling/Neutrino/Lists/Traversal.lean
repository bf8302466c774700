import Mathlib.Data.List.Induction
import Neutrino.Lists.Model

namespace Neutrino.Lists

open Library

abbrev addresses (nodes : List (W64 × W64)) : List W64 := nodes.map Prod.fst

def Memory.put (s : Memory) (node : W64) (found : ListNode) : Memory :=
  ⟨Function.update s.cells node (some found), s.supply⟩

theorem Memory.put_cells (s : Memory) (node b : W64) (found : ListNode) :
    (s.put node found).cells b = if b = node then some found else s.cells b := Function.update_apply ..

theorem Memory.put_ne {s : Memory} {node b : W64} {found : ListNode} (apart : b ≠ node) :
    (s.put node found).cells b = s.cells b := Function.update_of_ne apart ..

def Memory.free (s : Memory) (node : W64) : Memory := ⟨Function.update s.cells node none, s.supply⟩

theorem Memory.free_cells (s : Memory) (node b : W64) :
    (s.free node).cells b = if b = node then none else s.cells b := Function.update_apply ..

@[simp]
theorem Memory.put_supply (s : Memory) (node : W64) (found : ListNode) : (s.put node found).supply = s.supply := rfl

@[simp]
theorem Memory.put_put (s : Memory) (node : W64) (old found : ListNode) :
    (s.put node old).put node found = s.put node found := by
  simp only [put, Function.update_idem]

section Cells

variable {s : Memory} {node n data next prev : W64} {found junk : ListNode} {rest : List (W64 × ListNode)}

theorem load_eq (here : s.cells node = some found) : load node s = some (found, s) := by
  simp only [load, here, Option.map_some]

theorem setNext_eq (here : s.cells node = some ⟨data, next, prev⟩) (new : W64) :
    setNext node new s = some ((), s.put node ⟨data, new, prev⟩) := by
  simp only [setNext, store, here, Option.map_some, Memory.put]

theorem setPrev_eq (here : s.cells node = some ⟨data, next, prev⟩) (new : W64) :
    setPrev node new s = some ((), s.put node ⟨data, next, new⟩) := by
  simp only [setPrev, store, here, Option.map_some, Memory.put]

theorem lfree_eq (here : s.cells node = some found) (proper : node ≠ nullptr) :
    lfree node s = some ((), s.free node) := by
  simp only [lfree, if_neg proper, here, Option.map_some, Memory.free]

theorem listCreateNode_eq (supply : s.supply = (n, junk) :: rest) :
    listCreateNode data s = some (n, Memory.put ⟨s.cells, rest⟩ n ⟨data, nullptr, nullptr⟩) := by
  have taken : lmalloc s = some (n, Memory.put ⟨s.cells, rest⟩ n junk) := by
    simp only [lmalloc, supply, Memory.put]
  have written : setData n data (Memory.put ⟨s.cells, rest⟩ n ⟨junk.data, nullptr, nullptr⟩) =
      some ((), Memory.put ⟨s.cells, rest⟩ n ⟨data, nullptr, nullptr⟩) := by
    simp only [setData, store, Memory.put, Function.update_self, Option.map_some, Function.update_idem]
  rw [listCreateNode, bind_eq taken, bind_eq (setNext_eq (if_pos rfl) _), Memory.put_put,
    bind_eq (setPrev_eq (if_pos rfl) _), Memory.put_put, bind_eq written]
  rfl

theorem listHasNext_eq (here : s.cells node = some found) :
    listHasNext node s = some (found.next != nullptr, s) := by
  rw [listHasNext, bind_eq (load_eq here)]
  rfl

theorem listHasPrev_eq (here : s.cells node = some found) :
    listHasPrev node s = some (found.prev != nullptr, s) := by
  rw [listHasPrev, bind_eq (load_eq here)]
  rfl

end Cells

section Reading

variable {s : Memory} {p before a d : W64} {nodes xs : List (W64 × W64)} {fuel : Nat}

theorem lastNode_eq (segment : Segment s.cells before p (xs ++ [(a, d)]) nullptr)
    (proper : nullptr ∉ addresses (xs ++ [(a, d)])) (enough : xs.length < fuel) :
    lastNode fuel p s = some (a, s) := by
  induction xs generalizing before p fuel with
  | nil =>
    cases fuel with
    | zero => cases enough
    | succ fuel =>
      rcases segment with ⟨rfl, next, node, rfl⟩
      rw [lastNode, bind_eq (listHasNext_eq node)]
      rfl
  | cons x xs ih =>
    cases fuel with
    | zero => cases enough
    | succ fuel =>
      rcases segment with ⟨rfl, next, node, rest⟩
      simp only [List.cons_append, addresses, List.map_cons, List.mem_cons, not_or] at proper
      have more : next ≠ nullptr := by
        cases xs with
        | nil =>
          have head := rest.1
          simp only [List.nil_append, List.map_cons, List.mem_cons, not_or] at proper
          rw [head]
          exact Ne.symm proper.2.1
        | cons y ys =>
          have head := rest.1
          simp only [List.cons_append, List.map_cons, List.mem_cons, not_or] at proper
          rw [head]
          exact Ne.symm proper.2.1
      rw [lastNode, bind_eq (listHasNext_eq node)]
      simp only [bne_iff_ne, ne_eq, more, not_false_eq_true, ↓reduceIte]
      rw [bind_eq (load_eq node)]
      rw [List.length_cons] at enough
      exact ih rest proper.2 (by omega)

theorem Segment.head_ne {h : LinkStore W64 W64} {after x : W64} (segment : Segment h before p ((a, x) :: nodes) after)
    (proper : nullptr ∉ addresses ((a, x) :: nodes)) : p ≠ nullptr := by
  rw [segment.1]
  rintro rfl
  exact proper List.mem_cons_self

theorem countNodes_eq {size : Int} (segment : Segment s.cells before p nodes nullptr)
    (proper : nullptr ∉ addresses nodes) (enough : nodes.length < fuel) :
    countNodes fuel p (toInt32 size) s = some (toInt32 (size + nodes.length), s) := by
  induction nodes generalizing before p fuel size with
  | nil =>
    cases fuel with
    | zero => cases enough
    | succ fuel =>
      cases segment
      rw [List.length_nil, Int.natCast_zero, Int.add_zero]
      rfl
  | cons x nodes ih =>
    cases fuel with
    | zero => cases enough
    | succ fuel =>
      have here := Segment.head_ne segment proper
      rcases segment with ⟨rfl, next, node, rest⟩
      rw [List.length_cons] at enough
      simp only [countNodes, listIsNotNull, bne_iff_ne, ne_eq, here, not_false_eq_true, ↓reduceIte]
      rw [bind_eq (load_eq node), toInt32_step,
        ih rest (fun member => proper (List.mem_cons_of_mem _ member)) (by omega), List.length_cons, Int.natCast_succ,
        Int.add_assoc, Int.add_comm 1]

theorem listGetSize_wraps (list : LinkedList s.cells nullptr p nodes) (enough : nodes.length < fuel) :
    listGetSize fuel p s = some (toInt32 nodes.length, s) := by
  rw [listGetSize]
  by_cases empty : p = nullptr
  · have none := list.nil_iff.mp empty
    simp only [listIsEmpty, empty, BEq.rfl, ↓reduceIte, none]
    rfl
  · simp only [listIsEmpty, beq_iff_eq, empty, ↓reduceIte]
    have count := @countNodes_eq s p nullptr nodes fuel 0 list.segment list.proper enough
    rw [Int.zero_add] at count
    exact count

theorem listGetSize_eq (list : LinkedList s.cells nullptr p nodes) (small : nodes.length < 2 ^ 31)
    (enough : nodes.length < fuel) : listGetSize fuel p s = some ((nodes.length : Int), s) := by
  rw [listGetSize_wraps list enough, toInt32_of_small nodes.length small]

theorem listGetTail_eq (list : LinkedList s.cells nullptr p nodes) (enough : nodes.length < fuel) :
    listGetTail fuel p s = some (lastAddress nullptr nodes, s) := by
  rw [listGetTail]
  rcases List.eq_nil_or_concat nodes with rfl | ⟨xs, ⟨a, d⟩, rfl⟩
  · have empty : p = nullptr := list.nil_iff.mpr rfl
    simp only [listIsEmpty, empty, BEq.rfl, ↓reduceIte]
    rfl
  · rw [List.concat_eq_append] at list enough ⊢
    have more : p ≠ nullptr := fun empty => absurd (list.nil_iff.mp empty) (by simp)
    simp only [listIsEmpty, beq_iff_eq, more, ↓reduceIte]
    rw [List.length_append, List.length_singleton] at enough
    rw [lastNode_eq list.segment list.proper (by omega), lastAddress_snoc]

theorem listGetHead_eq {after : W64} (segment : Segment s.cells nullptr p (xs ++ (a, d) :: nodes) after)
    (proper : nullptr ∉ addresses (xs ++ [(a, d)])) (enough : xs.length < fuel) :
    listGetHead fuel a s = some (p, s) := by
  induction xs using List.reverseRecOn generalizing a d nodes fuel with
  | nil =>
    cases fuel with
    | zero => cases enough
    | succ fuel =>
      rcases segment with ⟨rfl, next, node, -⟩
      rw [listGetHead]
      by_cases zero : p = nullptr
      · rw [if_pos zero]
        rfl
      · rw [if_neg zero, bind_eq (load_eq node)]
        rfl
  | append_singleton xs x ih =>
    cases fuel with
    | zero => cases enough
    | succ fuel =>
      have whole := segment
      rcases Segment.split segment with ⟨-, -, -, next, node, -⟩
      rw [lastAddress_snoc] at node
      rw [List.append_assoc, List.singleton_append] at whole
      have apart : a ≠ nullptr := by
        rintro rfl
        exact proper (by simp)
      have more : x.1 ≠ nullptr := by
        intro zero
        exact proper (by simp [← zero])
      have before : nullptr ∉ addresses (xs ++ [(x.1, x.2)]) := by
        intro member
        apply proper
        simp only [addresses, List.map_append, List.mem_append] at member ⊢
        exact .inl member
      rw [listGetHead, if_neg apart, bind_eq (load_eq node)]
      simp only [more, ↓reduceIte]
      rw [bind_eq (load_eq node)]
      rw [List.length_append, List.length_singleton] at enough
      exact ih whole before (by omega)

theorem listGetHead_member (list : LinkedList s.cells nullptr p nodes) (member : a ∈ addresses nodes)
    (enough : nodes.length < fuel) : listGetHead fuel a s = some (p, s) := by
  rcases List.mem_map.mp member with ⟨⟨b, d⟩, inside, rfl⟩
  rcases List.append_of_mem inside with ⟨xs, after, rfl⟩
  rw [List.length_append] at enough
  refine listGetHead_eq list.segment (fun zero => list.proper ?_) (by omega)
  simp only [addresses, List.map_append, List.map_cons, List.map_nil, List.mem_append, List.mem_cons,
    List.not_mem_nil, or_false] at zero ⊢
  exact zero.imp_right .inl

theorem listGetHead_first (list : LinkedList s.cells nullptr p nodes) (enough : nodes.length < fuel) :
    listGetHead fuel p s = some (p, s) := by
  cases nodes with
  | nil =>
    have empty : p = nullptr := list.nil_iff.mpr rfl
    cases fuel with
    | zero => cases enough
    | succ fuel =>
      rw [listGetHead, if_pos empty]
      rfl
  | cons x nodes =>
    have head : p = x.1 := list.segment.1
    exact listGetHead_member list (by rw [head]; exact List.mem_cons_self) enough

theorem findWithLoop_eq {data : W64} (segment : Segment s.cells before p nodes nullptr)
    (proper : nullptr ∉ addresses nodes) (enough : nodes.length < fuel) :
    findWithLoop data fuel p s = some (((nodes.find? (·.2 == data)).map Prod.fst).getD nullptr, s) := by
  induction nodes generalizing before p fuel with
  | nil =>
    cases fuel with
    | zero => cases enough
    | succ fuel =>
      cases segment
      rfl
  | cons x nodes ih =>
    cases fuel with
    | zero => cases enough
    | succ fuel =>
      have here := Segment.head_ne segment proper
      rcases segment with ⟨rfl, next, node, rest⟩
      rw [List.length_cons] at enough
      simp only [findWithLoop, listIsNotNull, bne_iff_ne, ne_eq, here, not_false_eq_true, ↓reduceIte]
      rw [bind_eq (load_eq node)]
      by_cases same : x.2 = data
      · simp only [same, ↓reduceIte, List.find?_cons, BEq.rfl]
        rfl
      · simp only [same, ↓reduceIte, List.find?_cons, beq_eq_false_iff_ne.mpr same]
        rw [bind_eq (load_eq node)]
        exact ih rest (fun member => proper (List.mem_cons_of_mem _ member)) (by omega)

theorem listFindNodeWith_eq {data : W64} (list : LinkedList s.cells nullptr p nodes)
    (enough : nodes.length < fuel) : listFindNodeWith fuel p data s =
      some (((nodes.find? (·.2 == data)).map Prod.fst).getD nullptr, s) := by
  rw [listFindNodeWith]
  by_cases empty : p = nullptr
  · have none := list.nil_iff.mp empty
    simp only [listIsEmpty, empty, BEq.rfl, ↓reduceIte, none]
    rfl
  · simp only [listIsEmpty, beq_iff_eq, empty, ↓reduceIte]
    exact findWithLoop_eq list.segment list.proper enough

theorem findAtLoop_eq {index : Int} {iterator : Nat} (segment : Segment s.cells before p nodes nullptr)
    (proper : nullptr ∉ addresses nodes) (small : iterator + nodes.length < 2 ^ 31) (enough : nodes.length < fuel)
    (ahead : iterator ≤ index) : findAtLoop index fuel p iterator s =
      some (((nodes[(index - iterator).toNat]?).map Prod.fst).getD nullptr, s) := by
  induction nodes generalizing before p fuel iterator with
  | nil =>
    cases fuel with
    | zero => cases enough
    | succ fuel =>
      cases segment
      rfl
  | cons x nodes ih =>
    cases fuel with
    | zero => cases enough
    | succ fuel =>
      have here := Segment.head_ne segment proper
      rcases segment with ⟨rfl, next, node, rest⟩
      rw [List.length_cons] at enough small
      simp only [findAtLoop, listIsNotNull, bne_iff_ne, ne_eq, here, not_false_eq_true, ↓reduceIte]
      by_cases same : (iterator : Int) = index
      · simp only [same, ↓reduceIte, Int.sub_self, Int.toNat_zero, List.getElem?_cons_zero]
        rfl
      · have step : toInt32 ((iterator : Int) + 1) = ((iterator + 1 : Nat) : Int) :=
          toInt32_of_small (iterator + 1) (by omega)
        have position : (index - iterator).toNat = (index - (iterator + 1 : Nat)).toNat + 1 := by omega
        simp only [same, ↓reduceIte]
        rw [bind_eq (load_eq node), step, position, List.getElem?_cons_succ]
        exact ih rest (fun member => proper (List.mem_cons_of_mem _ member)) (by omega) (by omega) (by omega)

theorem listFindAt_eq (list : LinkedList s.cells nullptr p nodes) (small : nodes.length < 2 ^ 31)
    (enough : nodes.length < fuel) (index : Int) : listFindAt fuel p index s =
      some (if 0 ≤ index then ((nodes[index.toNat]?).map Prod.fst).getD nullptr else nullptr, s) := by
  rw [listFindAt, bind_eq (listGetSize_eq list small enough)]
  by_cases inside : index ≤ nodes.length ∧ index ≥ 0
  · rw [if_pos inside, if_pos inside.2]
    by_cases empty : p = nullptr
    · have none := list.nil_iff.mp empty
      simp only [listIsEmpty, empty, BEq.rfl, ↓reduceIte, none]
      rfl
    · simp only [listIsEmpty, beq_iff_eq, empty, ↓reduceIte]
      have found := findAtLoop_eq list.segment list.proper (by omega : 0 + nodes.length < 2 ^ 31) enough
        (by simpa using inside.2)
      simpa using found
  · rw [if_neg inside]
    split
    · rename_i nonneg
      have past : nodes[index.toNat]? = none := by
        rw [List.getElem?_eq_none_iff]
        omega
      rw [past]
      rfl
    · rfl

end Reading

end Neutrino.Lists
