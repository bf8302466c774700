import Mathlib.Data.Set.Defs
import Neutrino.Library.Runs
import Neutrino.Lists.Sequences

namespace Neutrino.Lists

open Library

inductive ListOp where
  | append (data : W64)
  | prepend (data : W64)
  | insertAt (index : Int) (data : W64)
  | deleteAt (index : Int)
  | deleteHead
  | deleteTail

def ListOp.call (fuel : Nat) (list : W64) : ListOp → ListM W64
  | append data => listAppend fuel list data
  | prepend data => listPrepend list data
  | insertAt index data => listInsertAt fuel list index data
  | deleteAt index => listDeleteAt fuel list index
  | deleteHead => listDeleteHead list
  | deleteTail => listDeleteTail fuel list

/-- A call, with what `lmalloc` returns during it: also nodes that an earlier call has freed. -/
structure ListStep where
  op : ListOp
  supply : List (W64 × ListNode)

/-- The head of the list with the nodes on the heap, and what a call makes of them. -/
def stepList (fuel : Nat) (current : W64 × LinkStore W64 W64) (step : ListStep) : Option (W64 × LinkStore W64 W64) :=
  (step.op.call fuel current.1 ⟨current.2, step.supply⟩).map fun after => (after.1, after.2.cells)

/-- What is allocated apart from the nodes of a list. -/
def elsewhere (cells : LinkStore W64 W64) (nodes : List (W64 × W64)) : Set W64 :=
  {a | cells a ≠ none ∧ a ∉ addresses nodes}

/-- A list whose nodes are all that is allocated outside `others`. -/
structure Owned (others : Set W64) (cells : LinkStore W64 W64) (p : W64) (nodes : List (W64 × W64)) : Prop where
  list : LinkedList cells nullptr p nodes
  exact : ∀ a ∉ others, (cells a ≠ none ↔ a ∈ addresses nodes)

/-- The call follows no null pointer, leaves the nodes of others alone, and what is allocated then is the
    list it returns. -/
def Sound (others : Set W64) (fuel : Nat) (p : W64) (s : Memory) (op : ListOp) : Prop :=
  Yields s (op.call fuel p) fun q s' =>
    (∃ nodes, Owned others s'.cells q nodes) ∧ ∀ a ∈ others, s'.cells a = s.cells a

/-- The calls on a list that come out right: no tail is deleted, also not by way of the index that is the
    size, no node is inserted between two others, and `lmalloc` has a node where one is needed. -/
def ListOp.Spares (s : Memory) (nodes : List (W64 × W64)) : ListOp → Prop
  | append _ | prepend _ => s.supply ≠ []
  | insertAt index _ => ¬ (0 < index ∧ index < toInt32 nodes.length) ∧
      (0 ≤ index → index ≤ toInt32 nodes.length → s.supply ≠ [])
  | deleteAt index => ¬ (0 < index ∧ index = toInt32 nodes.length)
  | deleteHead => True
  | deleteTail => nodes = []

def SoundStep (others : Set W64) (fuel : Nat) (current : W64 × LinkStore W64 W64) (step : ListStep) : Prop :=
  Sound others fuel current.1 ⟨current.2, step.supply⟩ step.op

def Spared (current : W64 × LinkStore W64 W64) (step : ListStep) : Prop :=
  ∀ nodes, LinkedList current.2 nullptr current.1 nodes → step.op.Spares ⟨current.2, step.supply⟩ nodes

/-- What `lmalloc` returns during the call is not in use when the call is made. -/
def Supplied (current : W64 × LinkStore W64 W64) (step : ListStep) : Prop := Fresh ⟨current.2, step.supply⟩

section Calls

variable {s : Memory} {p data : W64} {nodes : List (W64 × W64)} {fuel : Nat} {index : Int}

theorem Relinked.refl (list : LinkedList s.cells nullptr p nodes) : Relinked nodes nodes s p s := by
  refine ⟨list, .refl, fun a member => .inl member, fun a => ?_⟩
  have used := nodes_used list a
  by_cases member : a ∈ addresses nodes
  · simp [member, used member]
  · simp [member]

theorem listDeleteTail_empty : listDeleteTail fuel nullptr s = some (nullptr, s) := rfl

theorem listDeleteTail_single {a d : W64} (list : LinkedList s.cells nullptr p [(a, d)])
    (null : s.cells nullptr = none) (enough : 0 < fuel) : listDeleteTail fuel p s = none := by
  have more : p ≠ nullptr := fun empty => absurd (list.nil_iff.mp empty) (by simp)
  have segment : Segment s.cells nullptr p ([] ++ [(a, d)]) nullptr := list.segment
  rw [listDeleteTail]
  simp only [listIsEmpty, beq_iff_eq, more, ↓reduceIte]
  rw [bind_eq (lastNode_eq segment list.proper enough), bind_eq (load_eq segment.last_node)]
  apply bind_none
  simp only [lastAddress, setNext, store, null, Option.map_none]

theorem listDeleteTail_longer {a b d y : W64} {before : List (W64 × W64)}
    (list : LinkedList s.cells nullptr p (before ++ [(b, y), (a, d)])) (enough : before.length + 1 < fuel) :
    listDeleteTail fuel p s = some (p, s.put b ⟨y, nullptr, lastAddress nullptr before⟩) ∧
      LinkedList (s.put b ⟨y, nullptr, lastAddress nullptr before⟩).cells nullptr p (before ++ [(b, y)]) ∧
      (s.put b ⟨y, nullptr, lastAddress nullptr before⟩).cells a ≠ none ∧ a ∉ addresses (before ++ [(b, y)]) ∧
      a ≠ nullptr ∧ s.cells b = some ⟨y, a, lastAddress nullptr before⟩ := by
  have more : p ≠ nullptr := fun empty => absurd (list.nil_iff.mp empty) (by simp)
  have segment : Segment s.cells nullptr p ((before ++ [(b, y)]) ++ [(a, d)]) nullptr := by
    rw [List.append_assoc]
    exact list.segment
  have proper : nullptr ∉ addresses ((before ++ [(b, y)]) ++ [(a, d)]) := by
    rw [List.append_assoc]
    exact list.proper
  have long : (before ++ [(b, y)]).length < fuel := by
    rw [List.length_append, List.length_singleton]
    exact enough
  rcases list.segment.split_pair with ⟨first, left, next, right, rfl⟩
  have distinct := list.distinct
  have nonnull := list.proper
  simp only [List.map_append, List.map_cons, List.map_nil, List.nodup_append, List.nodup_cons, List.mem_append,
    List.mem_cons, List.not_mem_nil, or_false, not_or] at distinct nonnull
  have other : a ≠ b := by grind
  have kept : (s.put b ⟨y, nullptr, lastAddress nullptr before⟩).cells a = some ⟨d, nullptr, b⟩ := by
    rw [Memory.put_ne other, right]
  refine ⟨?_, ⟨(first.congr ?_).append (.single (if_pos rfl)), ?_, ?_⟩, ?_, ?_, Ne.symm nonnull.2.2, left⟩
  · rw [listDeleteTail]
    simp only [listIsEmpty, beq_iff_eq, more, ↓reduceIte]
    rw [bind_eq (lastNode_eq segment proper long), bind_eq (load_eq right), bind_eq (setNext_eq left _),
      bind_eq (load_eq kept), bind_eq (load_eq (if_pos rfl))]
    rfl
  · intro c member
    rw [Memory.put_ne]
    rintro rfl
    grind
  · simp only [List.map_append, List.map_cons, List.map_nil]
    grind
  · simp only [List.map_append, List.map_cons, List.map_nil]
    grind
  · rw [kept]
    exact Option.some_ne_none _
  · simp only [addresses, List.map_append, List.map_cons, List.map_nil]
    grind

variable (list : LinkedList s.cells nullptr p nodes) (null : s.cells nullptr = none) (enough : nodes.length < fuel)
include list null enough

theorem listDeleteTail_cases (some : nodes ≠ []) : (nodes.length = 1 ∧ listDeleteTail fuel p s = none) ∨
      ∃ before b y a d, nodes = before ++ [(b, y), (a, d)] ∧
        LinkedList s.cells nullptr p (before ++ [(b, y), (a, d)]) ∧ before.length + 1 < fuel := by
  rcases List.eq_nil_or_concat nodes with rfl | ⟨front, ⟨a, d⟩, rfl⟩
  · exact absurd rfl some
  rcases List.eq_nil_or_concat front with rfl | ⟨before, ⟨b, y⟩, rfl⟩
  · exact .inl ⟨rfl, listDeleteTail_single list null (by omega)⟩
  · simp only [List.concat_eq_append, List.append_assoc, List.singleton_append] at list enough ⊢
    rw [List.length_append, List.length_cons, List.length_singleton] at enough
    exact .inr ⟨before, b, y, a, d, rfl, list, by omega⟩

theorem listDeleteTail_iff (some : nodes ≠ []) :
    (Yields s (listDeleteTail fuel p) fun q s' => Heads s' q (nodes.map Prod.snd).dropLast) ↔ nodes.length ≠ 1 := by
  rcases listDeleteTail_cases list null enough some with ⟨one, stuck⟩ | ⟨before, b, y, a, d, rfl, list, enough⟩
  · refine ⟨?_, fun long => absurd one long⟩
    rintro ⟨q, s', taken, -⟩
    rw [stuck] at taken
    cases taken
  · rcases listDeleteTail_longer list enough with ⟨result, list', -⟩
    refine ⟨fun _ => by simp, fun _ => ⟨p, _, result, _, list', ?_⟩⟩
    rw [← List.map_dropLast]
    simp

theorem listDeleteAt_iff (outside : index < 0 ∨ nodes.length ≤ index) :
    listDeleteAt fuel p index s = some (p, s) ↔ ¬ (0 < index ∧ index = toInt32 nodes.length) := by
  have wrapped := toInt32_le nodes.length
  constructor
  · rintro unchanged ⟨later, last⟩
    rw [listDeleteAt_eq list enough, if_pos (by omega), if_neg (by omega), if_pos last] at unchanged
    have some : nodes ≠ [] := by
      rintro rfl
      rw [last] at later
      exact absurd later (by decide)
    rcases listDeleteTail_cases list null enough some with ⟨-, stuck⟩ | ⟨before, b, y, a, d, -, list, enough⟩
    · rw [stuck] at unchanged
      cases unchanged
    · rcases listDeleteTail_longer list enough with ⟨result, -, -, -, proper, here⟩
      rw [result] at unchanged
      have same := congrFun (congrArg Memory.cells (Prod.mk.inj (Option.some.inj unchanged)).2) b
      rw [here, Memory.put_cells, if_pos rfl] at same
      exact proper (LinkNode.mk.inj (Option.some.inj same)).2.1.symm
  · intro apart
    rw [listDeleteAt_eq list enough]
    split
    · have first : index = 0 := by omega
      have empty : nodes = [] := List.length_eq_zero_iff.mp (by omega)
      have head : p = nullptr := list.nil_iff.mpr empty
      rw [if_pos first, head]
      rfl
    · rfl

end Calls

/-! One call. -/

/-- The state of a run: `others` are allocated and no part of the list. -/
structure Tidy (others : Set W64) (cells : LinkStore W64 W64) (p : W64) (nodes : List (W64 × W64)) : Prop extends
    Owned others cells p nodes where
  null : cells nullptr = none
  apart : ∀ a ∈ others, cells a ≠ none ∧ a ∉ addresses nodes

section Calls

variable {others : Set W64} {s : Memory} {p data : W64} {nodes : List (W64 × W64)} {fuel : Nat} {index : Int}

theorem Tidy.relinked (tidy : Tidy others s.cells p nodes) (fresh : Fresh s) {q : W64} {s' : Memory}
    {nodes' : List (W64 × W64)} (relinked : Relinked nodes nodes' s q s') :
    Tidy others s'.cells q nodes' ∧ ∀ a ∈ others, s'.cells a = s.cells a := by
  have kept : ∀ a ∈ others, s'.cells a = s.cells a := by
    intro a member
    exact relinked.effect.kept fresh a (tidy.apart a member).1 (tidy.apart a member).2
  refine ⟨⟨⟨relinked.list, ?_⟩, ?_, ?_⟩, kept⟩
  · intro a outside
    rw [relinked.trades a, tidy.exact a outside]
    exact or_iff_left fun both => both.2 both.1
  · by_contra there
    rcases (relinked.trades nullptr).mp there with member | ⟨before, -⟩
    · exact relinked.list.proper member
    · exact before tidy.null
  · intro a member
    rcases tidy.apart a member with ⟨allocated, outside⟩
    refine ⟨by rwa [kept a member], fun inside => ?_⟩
    rcases relinked.within a inside with old | unused
    · exact outside old
    · exact allocated unused

theorem spared_yields (tidy : Tidy others s.cells p nodes) (fresh : Fresh s) (enough : nodes.length < fuel) {op : ListOp}
    (spares : op.Spares s nodes) :
    Yields s (op.call fuel p) fun q s' =>
      ∃ nodes', Relinked nodes nodes' s q s' ∧ nodes'.length ≤ nodes.length + 1 := by
  have list := tidy.list
  have wrapped := toInt32_le nodes.length
  have appends (stock : s.supply ≠ []) (data : W64) : Yields s (listAppend fuel p data) fun q s' =>
      ∃ nodes', Relinked nodes nodes' s q s' ∧ nodes'.length ≤ nodes.length + 1 := by
    rcases List.exists_cons_of_ne_nil stock with ⟨made, rest, supply⟩
    refine (listAppend_yields list fresh supply enough).mono fun q s' relinked => ⟨_, relinked, ?_⟩
    exact Nat.le_of_eq List.length_append
  have prepends (stock : s.supply ≠ []) (data : W64) : Yields s (listPrepend p data) fun q s' =>
      ∃ nodes', Relinked nodes nodes' s q s' ∧ nodes'.length ≤ nodes.length + 1 := by
    rcases List.exists_cons_of_ne_nil stock with ⟨made, rest, supply⟩
    exact (listPrepend_yields list fresh supply).mono fun q s' relinked => ⟨_, relinked, Nat.le_refl _⟩
  have deletesHead : Yields s (listDeleteHead p) fun q s' =>
      ∃ nodes', Relinked nodes nodes' s q s' ∧ nodes'.length ≤ nodes.length + 1 := by
    refine (listDeleteHead_yields list).mono fun q s' relinked => ⟨_, relinked, ?_⟩
    rw [List.length_tail]
    omega
  have stays : ∃ nodes', Relinked nodes nodes' s p s ∧ nodes'.length ≤ nodes.length + 1 :=
    ⟨nodes, .refl list, by omega⟩
  cases op with
  | append data => exact appends spares data
  | prepend data => exact prepends spares data
  | deleteHead => exact deletesHead
  | deleteTail =>
    have empty : p = nullptr := list.nil_iff.mpr spares
    rw [empty] at stays ⊢
    exact .of_eq listDeleteTail_empty stays
  | insertAt index data =>
    rcases spares with ⟨between, stock⟩
    rw [ListOp.call, Yields, listInsertAt_eq list enough]
    split
    · rename_i inside
      have stocked := stock inside.2 inside.1
      split
      · exact prepends stocked data
      · rw [if_pos (by omega)]
        exact appends stocked data
    · exact ⟨p, s, rfl, stays⟩
  | deleteAt index =>
    by_cases inside : index ≤ toInt32 nodes.length ∧ index ≥ 0
    · by_cases first : index = 0
      · rw [ListOp.call, Yields, listDeleteAt_eq list enough, if_pos inside, if_pos first]
        exact deletesHead
      · obtain ⟨i, rfl⟩ := Int.eq_ofNat_of_zero_le inside.2
        have last : ¬ (0 < (i : Int) ∧ (i : Int) = toInt32 nodes.length) := spares
        refine (listDeleteAt_inner list enough (by omega) (by omega)).mono fun q s' relinked => ⟨_, relinked, ?_⟩
        exact Nat.le_trans (List.length_eraseIdx_le _ _) (Nat.le_succ _)
    · exact .of_eq ((listDeleteAt_eq list enough).trans (if_neg inside)) stays

theorem not_sound_of_leak {op : ListOp} {q a : W64} {s' : Memory} {nodes' : List (W64 × W64)}
    (taken : op.call fuel p s = some (q, s')) (list' : LinkedList s'.cells nullptr q nodes')
    (allocated : s'.cells a ≠ none) (outside : a ∉ others) (unreached : a ∉ addresses nodes') :
    ¬ Sound others fuel p s op := by
  intro sound
  rcases (sound.outcome taken).1 with ⟨nodes'', owned⟩
  rw [list'.unique owned.list] at unreached
  exact unreached ((owned.exact a outside).mp allocated)

theorem not_sound_of_stuck {op : ListOp} (stuck : op.call fuel p s = none) : ¬ Sound others fuel p s op := by
  rintro ⟨q, s', taken, -⟩
  rw [stuck] at taken
  cases taken

theorem deleteTail_unsound (tidy : Tidy others s.cells p nodes) (enough : nodes.length < fuel) (some : nodes ≠ [])
    {op : ListOp} (same : op.call fuel p s = listDeleteTail fuel p s) : ¬ Sound others fuel p s op := by
  rcases listDeleteTail_cases tidy.list tidy.null enough some with
    ⟨-, stuck⟩ | ⟨before, b, y, a, d, rfl, list, enough⟩
  · exact not_sound_of_stuck (same.trans stuck)
  · have apart : a ∉ others := fun member => (tidy.apart a member).2 (by simp)
    rcases listDeleteTail_longer list enough with ⟨result, list', allocated, unreached, -⟩
    exact not_sound_of_leak (same.trans result) list' allocated apart unreached

theorem listCreateNode_starved (supply : s.supply = []) : listCreateNode data s = none := by
  rw [listCreateNode]
  apply bind_none
  simp only [lmalloc, supply]

theorem listPrepend_starved (supply : s.supply = []) : listPrepend p data s = none :=
  bind_none (listCreateNode_starved supply)

theorem listAppend_starved (supply : s.supply = []) : listAppend fuel p data s = none :=
  bind_none (listCreateNode_starved supply)

theorem insertLoop_stuck {list q : W64} {iterator : Int} (here : q ≠ nullptr) (supply : s.supply = []) :
    insertLoop list index data fuel q iterator s = none := by
  cases fuel with
  | zero => rfl
  | succ fuel =>
    simp only [insertLoop, listIsNotNull, bne_iff_ne, ne_eq, here, not_false_eq_true, ↓reduceIte]
    exact bind_none (listCreateNode_starved supply)

theorem insertLoop_starved {a x : W64} {todo after : List (W64 × W64)}
    (list : LinkedList s.cells nullptr p (todo ++ (a, x) :: after)) (fresh : Fresh s)
    (starved : s.supply.length ≤ todo.length) (enough : todo.length < fuel) (small : todo.length < 2 ^ 31) :
    insertLoop p todo.length data fuel p 0 s = none := by
  -- the node at which `lmalloc` has nothing left
  have inside : s.supply.length < (todo ++ (a, x) :: after).length := by simp; omega
  rcases exists_split_at inside with ⟨before, ⟨c, y⟩, rest, split, count⟩
  rw [split] at list
  obtain ⟨fuel, rfl⟩ : ∃ k, fuel = before.length + k := ⟨fuel - before.length, by omega⟩
  obtain ⟨s', skipped, list', -, left, -⟩ := @insertLoop_skips s p c data fuel p y todo.length [] before rest list
    list.segment.head_eq fresh (by omega) (by simp; omega) small
  refine skipped.trans (insertLoop_stuck ?_ ?_)
  · rintro rfl
    exact list'.proper (by simp)
  · rw [left, count, List.drop_length]

theorem insertLoop_leaks {a x : W64} {todo after : List (W64 × W64)}
    (list : LinkedList s.cells nullptr p (todo ++ (a, x) :: after)) (some : todo ≠ []) (fresh : Fresh s)
    (stock : todo.length < s.supply.length) (enough : todo.length < fuel) (small : todo.length < 2 ^ 31) :
    Yields s (insertLoop p todo.length data fuel p 0) fun r s' =>
      ∃ n nodes', LinkedList s'.cells nullptr r nodes' ∧ s.cells n = none ∧ s'.cells n ≠ none ∧
        n ∉ addresses nodes' := by
  have yields := insertLoop_yields data [] list list.segment.head_eq some fresh stock enough (by simpa using small)
  rw [List.length_nil, Nat.zero_add] at yields
  refine Yields.mono yields ?_
  rintro r s' ⟨⟨m, list'⟩, -, leaves⟩
  obtain ⟨n, none, still⟩ := leaves some
  have unused := unused_apart list.segment none
  refine ⟨n, _, list', none, by rw [still]; exact Option.some_ne_none _, fun member => ?_⟩
  rw [List.nil_append] at list' member
  by_cases inserted : n = m
  · rcases list'.segment.split_cons with ⟨-, next, node, others⟩
    rw [← inserted, still] at node
    apply list.proper
    rw [(LinkNode.mk.inj (Option.some.inj node)).2.1, others.1]
    simp
  · apply unused
    simp only [addresses, List.map_append, List.map_cons, List.mem_append, List.mem_cons, inserted, false_or] at member ⊢
    exact member

theorem insertAt_unsound (tidy : Tidy others s.cells p nodes) (fresh : Fresh s) (enough : nodes.length < fuel)
    (later : 0 < index) (inside : index < toInt32 nodes.length) : ¬ Sound others fuel p s (.insertAt index data) := by
  have list := tidy.list
  have wrapped := toInt32_le nodes.length
  obtain ⟨i, rfl⟩ := Int.eq_ofNat_of_zero_le (Int.le_of_lt later)
  have position : i < nodes.length := by omega
  have small : i < 2 ^ 31 := by omega
  have looped : ListOp.call fuel p (.insertAt i data) s = insertLoop p i data fuel p 0 s :=
    (listInsertAt_eq list enough).trans (by rw [if_pos (by omega), if_neg (by omega), if_neg (by omega)])
  clear wrapped inside
  rcases exists_split_at position with ⟨todo, ⟨a, x⟩, after, rfl, rfl⟩
  by_cases starved : s.supply.length ≤ todo.length
  · exact not_sound_of_stuck (looped.trans (insertLoop_starved list fresh starved (by omega) small))
  · have some : todo ≠ [] := by
      rintro rfl
      cases later
    rcases @insertLoop_leaks s p data fuel a x todo after list some fresh (by omega) (by omega) small with
      ⟨q, s', taken, n, nodes', list', unused, allocated, unreached⟩
    refine not_sound_of_leak (looped.trans taken) list' allocated ?_ unreached
    exact fun member => (tidy.apart n member).1 unused

theorem sound_iff (tidy : Tidy others s.cells p nodes) (fresh : Fresh s) (enough : nodes.length < fuel) (op : ListOp) :
    Sound others fuel p s op ↔ op.Spares s nodes := by
  constructor
  · intro sound
    by_contra bad
    cases op with
    | append data =>
      apply not_sound_of_stuck _ sound
      exact listAppend_starved (not_ne_iff.mp bad)
    | prepend data =>
      apply not_sound_of_stuck _ sound
      exact listPrepend_starved (not_ne_iff.mp bad)
    | deleteHead => exact bad trivial
    | deleteTail => exact deleteTail_unsound tidy enough bad rfl sound
    | deleteAt index =>
      obtain ⟨later, last⟩ : 0 < index ∧ index = toInt32 nodes.length := not_not.mp bad
      have some : nodes ≠ [] := by
        rintro rfl
        rw [last] at later
        exact absurd later (by decide)
      apply deleteTail_unsound tidy enough some _ sound
      exact (listDeleteAt_eq tidy.list enough).trans (by rw [if_pos (by omega), if_neg (by omega), if_pos last])
    | insertAt index data =>
      by_cases between : 0 < index ∧ index < toInt32 nodes.length
      · exact insertAt_unsound tidy fresh enough between.1 between.2 sound
      · have bare : 0 ≤ index ∧ index ≤ toInt32 nodes.length ∧ s.supply = [] := by
          by_contra stocked
          apply bad
          refine ⟨between, fun low high starved => stocked ⟨low, high, starved⟩⟩
        rcases bare with ⟨low, high, starved⟩
        apply not_sound_of_stuck _ sound
        rw [ListOp.call, listInsertAt_eq tidy.list enough, if_pos ⟨high, low⟩]
        split
        · exact listPrepend_starved starved
        · rw [if_pos (by omega)]
          exact listAppend_starved starved
  · intro spares
    refine (spared_yields tidy fresh enough spares).mono ?_
    rintro q s' ⟨nodes', relinked, -⟩
    have after := tidy.relinked fresh relinked
    exact ⟨⟨nodes', after.1.toOwned⟩, after.2⟩

end Calls

/-! Sequences of calls. -/

section Runs

variable {others : Set W64} {s : Memory} {p : W64} {nodes : List (W64 × W64)} {fuel : Nat}

/-- Before a run of so many calls. -/
def Ready (others : Set W64) (fuel : Nat) (left : Nat) (current : W64 × LinkStore W64 W64) : Prop :=
  ∃ nodes, Tidy others current.2 current.1 nodes ∧ nodes.length + left < fuel

theorem tidy_elsewhere (list : LinkedList s.cells nullptr p nodes) (null : s.cells nullptr = none) :
    Tidy (elsewhere s.cells nodes) s.cells p nodes := by
  refine ⟨⟨list, fun a outside => ⟨fun allocated => ?_, nodes_used list a⟩⟩, null, fun a member => member⟩
  by_contra unreached
  exact outside ⟨allocated, unreached⟩

theorem ready_agree {left : Nat} {current : W64 × LinkStore W64 W64} (ready : Ready others fuel (left + 1) current)
    {step : ListStep} (supplied : Supplied current step) :
    SoundStep others fuel current step ↔ Spared current step := by
  rcases ready with ⟨nodes, tidy, enough⟩
  rw [SoundStep, sound_iff tidy supplied (by omega)]
  constructor
  · intro spares nodes' list'
    rw [← tidy.list.unique list']
    exact spares
  · intro spared
    exact spared nodes tidy.list

theorem ready_kept {left : Nat} {current next : W64 × LinkStore W64 W64} (ready : Ready others fuel (left + 1) current)
    {step : ListStep} (supplied : Supplied current step) (sound : SoundStep others fuel current step)
    (taken : stepList fuel current step = some next) : Ready others fuel left next := by
  rcases ready with ⟨nodes, tidy, enough⟩
  rcases Option.map_eq_some_iff.mp taken with ⟨after, called, rfl⟩
  have spares := (sound_iff tidy supplied (by omega) step.op).mp sound
  rcases (spared_yields tidy supplied (by omega : nodes.length < fuel) spares).outcome called with
    ⟨nodes', relinked, count⟩
  exact ⟨nodes', (tidy.relinked supplied relinked).1, by omega⟩

end Runs

theorem list_deletion_iff (s : Memory) (p : W64) (nodes : List (W64 × W64))
    (list : LinkedList s.cells nullptr p nodes) (null : s.cells nullptr = none)
    (steps : List ListStep) (fuel : Nat) (enough : nodes.length + steps.length < fuel)
    (supplied : EveryStep (stepList fuel) Supplied (p, s.cells) steps) :
    (nodes ≠ [] →
      ((Yields s (listDeleteTail fuel p) fun q s' => Heads s' q (nodes.map Prod.snd).dropLast) ↔
        nodes.length ≠ 1)) ∧
    (∀ index : Int, index < 0 ∨ nodes.length ≤ index →
      (listDeleteAt fuel p index s = some (p, s) ↔ ¬ (0 < index ∧ index = toInt32 nodes.length))) ∧
    (EveryStep (stepList fuel) (SoundStep (elsewhere s.cells nodes) fuel) (p, s.cells) steps ↔
      EveryStep (stepList fuel) Spared (p, s.cells) steps) := by
  refine ⟨?_, ?_, ?_⟩
  · exact listDeleteTail_iff list null (by omega)
  · intro index outside
    exact listDeleteAt_iff list null (by omega) outside
  · have ready : Ready (elsewhere s.cells nodes) fuel steps.length (p, s.cells) :=
      ⟨nodes, tidy_elsewhere list null, enough⟩
    exact everyStep_iff (fun _ _ _ before fresh => ready_agree before fresh)
      (fun _ _ _ _ before fresh sound taken => ready_kept before fresh sound taken) ready supplied

/-- Two nodes with the values 7 and 8, and memory for one more. -/
def pairList : Memory where
  cells a := if a = 1 then some ⟨7, 2, 0⟩ else if a = 2 then some ⟨8, 0, 1⟩ else none
  supply := [(3, ⟨0, 0, 0⟩)]

/-- The last step is given the node that the one before it has freed. -/
def pairSteps : List ListStep :=
  [⟨.append 9, [(3, ⟨0, 0, 0⟩)]⟩, ⟨.deleteHead, []⟩, ⟨.append 10, [(1, ⟨0, 0, 0⟩)]⟩]

theorem fresh_single {cells : LinkStore W64 W64} {n : W64} {junk : ListNode} (proper : n ≠ nullptr)
    (unused : cells n = none) : Fresh ⟨cells, [(n, junk)]⟩ := by
  refine ⟨List.nodup_singleton n, fun a member => ?_⟩
  rw [List.mem_singleton.mp member]
  exact ⟨proper, unused⟩

theorem list_deletion_pair :
    (Yields pairList (listDeleteTail 6 1) fun q s' => Heads s' q [7]) ∧
      listDeleteAt 6 1 3 pairList = some (1, pairList) ∧
      EveryStep (stepList 6) (SoundStep (elsewhere pairList.cells [(1, 7), (2, 8)]) 6) (1, pairList.cells) pairSteps := by
  have list : LinkedList pairList.cells nullptr 1 [(1, 7), (2, 8)] :=
    ⟨.cons rfl (.single rfl), by decide, by decide⟩
  have supplied : EveryStep (stepList 6) Supplied (1, pairList.cells) pairSteps := by
    refine ⟨fresh_single (by decide) rfl, fun next taken => ?_⟩
    cases taken
    refine ⟨⟨List.nodup_nil, fun a member => absurd member List.not_mem_nil⟩, fun next taken => ?_⟩
    cases taken
    exact ⟨fresh_single (by decide) rfl, fun _ _ => trivial⟩
  obtain ⟨tail, outside, runs⟩ :=
    list_deletion_iff pairList 1 [(1, 7), (2, 8)] list rfl pairSteps 6 (by decide) supplied
  refine ⟨(tail (by decide)).mpr (by decide), (outside 3 (.inr (by decide))).mpr (by decide), runs.mpr ?_⟩
  exact ⟨fun _ _ => List.cons_ne_nil _ _, fun _ _ => ⟨fun _ _ => trivial, fun _ _ =>
    ⟨fun _ _ => List.cons_ne_nil _ _, fun _ _ => trivial⟩⟩⟩

/-- The tail of a list of one cannot be deleted, and that of a list of two stays allocated. -/
theorem delete_tail_wrong :
    listDeleteTail 5 1 singleList = none ∧
      (listDeleteTail 5 1 pairList).map (fun after => (after.1, after.2.cells 1, after.2.cells 2)) =
        some (1, some ⟨7, 0, 0⟩, some ⟨8, 0, 1⟩) := by
  constructor
  · decide
  · decide

end Neutrino.Lists
