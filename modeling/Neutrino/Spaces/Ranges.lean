import Mathlib.Data.List.Perm.Basic
import Mathlib.Logic.Function.Basic
import Neutrino.Machine.Word

namespace Neutrino.Spaces

/-- `size` is a `size_t`, of 32 bits here. -/
structure MemoryRange where
  base : W64
  size : W32
  deriving DecidableEq, Repr

structure MemoryRangeNode where
  range : MemoryRange
  next : W64
  deriving DecidableEq, Repr

/-- The list of a space's ranges on the heap: the contents of the nodes, which `kfree` leaves as
    they are, the nodes that are allocated, the major in whose pages a node lies, the number of
    live blocks of each major, and the calls of `vmm_free_memory` so far. -/
structure RangeHeap where
  nodes : W64 → MemoryRangeNode
  live : W64 → Bool
  major : W64 → W64
  blocks : W64 → Nat
  memoryRanges : W64
  frees : List MemoryRange

/-- A major without blocks has given its pages back, and a use of them is a page fault. -/
def RangeHeap.read (s : RangeHeap) (node : W64) : Option MemoryRangeNode :=
  if s.blocks (s.major node) = 0 then none else some (s.nodes node)

def RangeHeap.vmmFreeMemory (s : RangeHeap) (range : MemoryRange) : RangeHeap :=
  { s with frees := s.frees ++ [range] }

/-- A node that is freed already is left alone. -/
def RangeHeap.kfree (s : RangeHeap) (node : W64) : Option RangeHeap :=
  if s.blocks (s.major node) = 0 then none
  else if s.live node then some { s with
    live := Function.update s.live node false
    blocks := Function.update s.blocks (s.major node) (s.blocks (s.major node) - 1) }
  else some s

/-- The loop of `DestroySpace`, which reads `next` of a node it has freed. -/
def destroyRanges : (fuel : Nat) → (node : W64) → RangeHeap → Option RangeHeap
  | 0, _, _ => none
  | fuel + 1, node, s =>
    if node = 0#64 then some s
    else (s.read node).bind fun found => ((s.vmmFreeMemory found.range).kfree node).bind fun s =>
      (s.read node).bind fun freed => destroyRanges fuel freed.next s

def Linked (s : RangeHeap) : W64 → List W64 → Prop
  | node, [] => node = 0#64
  | node, first :: rest => node = first ∧ node ≠ 0#64 ∧ s.live node = true ∧ Linked s (s.nodes node).next rest

def RangeHeap.among (s : RangeHeap) (list : List W64) (major : W64) : Nat := list.countP fun node => s.major node = major

/-- The allocated nodes from `head` on, each of them one block of its major. -/
structure Listed (s : RangeHeap) (head : W64) (list : List W64) : Prop where
  linked : Linked s head list
  nodup : list.Nodup
  counted : ∀ major, s.among list major ≤ s.blocks major

def RangeHeap.ranges (s : RangeHeap) (list : List W64) : List MemoryRange := list.map fun node => (s.nodes node).range

/-- What `space_unmap` is for. -/
structure Unmapped (virtAddr : W64) (ranges : List MemoryRange) (s s' : RangeHeap) : Prop where
  freed : ∃ calls, s'.frees = s.frees ++ calls ∧ calls.Perm (ranges.filter fun r => r.base = virtAddr)
  listed : ∃ list, Listed s' s'.memoryRanges list ∧ s'.ranges list = ranges.filter fun r => r.base ≠ virtAddr
  destroyed : ∃ fuel s'' calls, destroyRanges fuel s'.memoryRanges s' = some s'' ∧ s''.frees = s'.frees ++ calls ∧
    calls.Perm (ranges.filter fun r => r.base ≠ virtAddr)

section Lists

variable {s s' : RangeHeap} {node head : W64} {list rest : List W64}

theorem among_cons (first major : W64) :
    s.among (first :: rest) major = s.among rest major + if s.major first = major then 1 else 0 := by
  simp [RangeHeap.among, List.countP_cons]

theorem Linked.congr (linked : Linked s head list)
    (same : ∀ node ∈ list, s'.nodes node = s.nodes node ∧ s'.live node = s.live node) : Linked s' head list := by
  induction list generalizing head with
  | nil => exact linked
  | cons first rest ih =>
    obtain ⟨rfl, set, alive, next⟩ := linked
    obtain ⟨contents, life⟩ := same head List.mem_cons_self
    refine ⟨rfl, set, life.trans alive, ?_⟩
    rw [contents]
    exact ih next fun node member => same node (List.mem_cons_of_mem head member)

theorem Linked.live (linked : Linked s head list) (member : node ∈ list) : s.live node = true := by
  induction list generalizing head with
  | nil => cases member
  | cons first rest ih =>
    obtain ⟨rfl, -, alive, next⟩ := linked
    rcases List.mem_cons.mp member with rfl | later
    · exact alive
    · exact ih next later

theorem Listed.read (listed : Listed s node (node :: rest)) : s.read node = some (s.nodes node) := by
  have counted := listed.counted (s.major node)
  rw [among_cons, if_pos rfl] at counted
  exact if_neg (by omega)

end Lists

section Unmap

variable {s : RangeHeap} {node virtAddr : W64} {list : List W64} {fuel : Nat}

theorem Listed.behind (listed : Listed s node (node :: list)) : Listed s (s.nodes node).next list := by
  obtain ⟨⟨-, -, -, next⟩, nodup, counted⟩ := listed
  refine ⟨next, (List.nodup_cons.mp nodup).2, fun major => ?_⟩
  have more := counted major
  rw [among_cons] at more
  omega

end Unmap

section Destroy

variable {s s' : RangeHeap} {node : W64} {list : List W64} {fuel : Nat}

/-- The heap once the range of a node and the node itself are freed. -/
def RangeHeap.released (s : RangeHeap) (node : W64) : RangeHeap :=
  { s.vmmFreeMemory (s.nodes node).range with
    live := Function.update s.live node false
    blocks := Function.update s.blocks (s.major node) (s.blocks (s.major node) - 1) }

theorem Listed.kfree (listed : Listed s node (node :: list)) :
    (s.vmmFreeMemory (s.nodes node).range).kfree node = some (s.released node) := by
  have counted := listed.counted (s.major node)
  rw [among_cons, if_pos rfl] at counted
  have alive := listed.linked.live (List.mem_cons_self (a := node))
  simp only [RangeHeap.kfree, RangeHeap.vmmFreeMemory, alive, ↓reduceIte, show s.blocks (s.major node) ≠ 0 by omega]
  rfl

theorem released_blocks (node major : W64) :
    (s.released node).blocks major = s.blocks major - if s.major node = major then 1 else 0 := by
  by_cases same : s.major node = major
  · subst same
    simp [RangeHeap.released]
  · simp [RangeHeap.released, Function.update_of_ne (Ne.symm same), same]

theorem Listed.released (listed : Listed s node (node :: list)) :
    Listed (s.released node) (s.nodes node).next list := by
  have other : ∀ m ∈ list, m ≠ node := by
    rintro m member rfl
    exact (List.nodup_cons.mp listed.nodup).1 member
  refine ⟨listed.behind.linked.congr fun m member => ⟨rfl, Function.update_of_ne (other m member) ..⟩,
    listed.behind.nodup, fun major => ?_⟩
  have counted := listed.counted major
  have same : (s.released node).among list major = s.among list major := rfl
  rw [among_cons] at counted
  rw [same, released_blocks]
  omega

end Destroy

end Neutrino.Spaces
