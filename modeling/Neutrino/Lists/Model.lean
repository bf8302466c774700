import Neutrino.Library.DoublyLinked
import Neutrino.Library.Partial
import Neutrino.Machine.Word

namespace Neutrino.Lists

open Library

/-- `struct _List`. -/
abbrev ListNode := LinkNode W64 W64

/-- The nodes on the heap, and what `lmalloc` returns next with the contents found there. -/
structure Memory where
  cells : LinkStore W64 W64
  supply : List (W64 × ListNode)

/-- There is no outcome when a pointer to no node is followed, when `lmalloc` has nothing to return
    or when the iterations of a loop run out. -/
abbrev ListM := StateT Memory Option

def nullptr : W64 := 0

def load (node : W64) : ListM ListNode := fun s => (s.cells node).map fun found => (found, s)

def store (node : W64) (edit : ListNode → ListNode) : ListM Unit := fun s =>
  (s.cells node).map fun found =>
    ((), { s with cells := Function.update s.cells node (some (edit found)) })

def setNext (node next : W64) : ListM Unit := store node fun found => { found with next }

def setPrev (node prev : W64) : ListM Unit := store node fun found => { found with prev }

def setData (node data : W64) : ListM Unit := store node fun found => { found with data }

def lmalloc : ListM W64 := fun s =>
  match s.supply with
  | [] => none
  | (node, junk) :: supply => some (node, ⟨Function.update s.cells node (some junk), supply⟩)

def lfree (node : W64) : ListM Unit := fun s =>
  if node = nullptr then some ((), s)
  else (s.cells node).map fun _ => ((), { s with cells := Function.update s.cells node none })

def listCreateNode (data : W64) : ListM W64 := do
  let newNode ← lmalloc
  setNext newNode nullptr
  setPrev newNode nullptr
  setData newNode data
  return newNode

def listIsEmpty (list : W64) : Bool := list == nullptr

def listIsNotNull (list : W64) : Bool := list != nullptr

def listHasNext (node : W64) : ListM Bool := do return (← load node).next != nullptr

def listHasPrev (node : W64) : ListM Bool := do return (← load node).prev != nullptr

def listPrepend (list data : W64) : ListM W64 := do
  let newNode ← listCreateNode data
  if listIsEmpty list then return newNode
  setNext newNode list
  setPrev list newNode
  return newNode

/-- The loop `while (list_has_next(temp)) temp = temp->next`. -/
def lastNode : (fuel : Nat) → (temp : W64) → ListM W64
  | 0, _ => failure
  | fuel + 1, temp => do
    if ← listHasNext temp then lastNode fuel (← load temp).next else return temp

def listAppend (fuel : Nat) (list data : W64) : ListM W64 := do
  let newNode ← listCreateNode data
  if listIsEmpty list then return newNode
  let temp ← lastNode fuel list
  setNext temp newNode
  setPrev newNode temp
  return list

def listGetHead : (fuel : Nat) → (list : W64) → ListM W64
  | 0, _ => failure
  | fuel + 1, list => do
    if list = nullptr then return list
    if (← load list).prev = nullptr then return list
    listGetHead fuel (← load list).prev

def listGetTail (fuel : Nat) (list : W64) : ListM W64 := do
  if listIsEmpty list then return nullptr
  lastNode fuel list

def listDeleteHead (list : W64) : ListM W64 := do
  if listIsEmpty list then return nullptr
  if (← load list).next = nullptr then
    lfree list
    return nullptr
  let list := (← load list).next
  lfree (← load list).prev
  setPrev list nullptr
  return list

def listDeleteTail (fuel : Nat) (list : W64) : ListM W64 := do
  if listIsEmpty list then return nullptr
  let temp ← lastNode fuel list
  setNext (← load temp).prev nullptr
  lfree (← load (← load temp).prev).next
  return list

/-- The loop of `list_get_size`, whose counter is an `int`. -/
def countNodes : (fuel : Nat) → (temp : W64) → (size : Int) → ListM Int
  | 0, _, _ => failure
  | fuel + 1, temp, size => do
    if listIsNotNull temp then countNodes fuel (← load temp).next (toInt32 (size + 1)) else return size

def listGetSize (fuel : Nat) (list : W64) : ListM Int := do
  if listIsEmpty list then return 0
  countNodes fuel list 0

def listIsLast (fuel : Nat) (node : W64) (iterator : Int) : ListM Bool := do
  return iterator == (← listGetSize fuel node)

def listIsFirst (iterator : Int) : Bool := iterator == 0

/-- The loop of `list_insert_at`, which makes a node in each of its iterations. -/
def insertLoop (list : W64) (index : Int) (data : W64) : (fuel : Nat) → (temp : W64) → (iterator : Int) →
    ListM W64
  | 0, _, _ => failure
  | fuel + 1, temp, iterator => do
    if listIsNotNull temp then
      let newNode ← listCreateNode data
      if iterator = index then
        let temp := (← load temp).prev
        setPrev (← load temp).next newNode
        setNext newNode (← load temp).next
        setPrev newNode temp
        setNext temp newNode
        return list
      insertLoop list index data fuel (← load temp).next (toInt32 (iterator + 1))
    else return list

def listInsertAt (fuel : Nat) (list : W64) (index : Int) (data : W64) : ListM W64 := do
  if index ≤ (← listGetSize fuel list) ∧ index ≥ 0 then
    if listIsFirst index then return ← listPrepend list data
    if ← listIsLast fuel list index then return ← listAppend fuel list data
    insertLoop list index data fuel list 0
  else return list

def deleteLoop (list : W64) (index : Int) : (fuel : Nat) → (temp : W64) → (iterator : Int) → ListM W64
  | 0, _, _ => failure
  | fuel + 1, temp, iterator => do
    if listIsNotNull temp then
      if iterator = index then
        if ← listHasNext temp then setPrev (← load temp).next (← load temp).prev
        if ← listHasPrev temp then setNext (← load temp).prev (← load temp).next
        lfree temp
        return list
      deleteLoop list index fuel (← load temp).next (toInt32 (iterator + 1))
    else return list

def listDeleteAt (fuel : Nat) (list : W64) (index : Int) : ListM W64 := do
  if index ≤ (← listGetSize fuel list) ∧ index ≥ 0 then
    if listIsFirst index then return ← listDeleteHead list
    if ← listIsLast fuel list index then return ← listDeleteTail fuel list
    deleteLoop list index fuel list 0
  else return list

def findWithLoop (data : W64) : (fuel : Nat) → (temp : W64) → ListM W64
  | 0, _ => failure
  | fuel + 1, temp => do
    if listIsNotNull temp then
      if (← load temp).data = data then return temp
      findWithLoop data fuel (← load temp).next
    else return nullptr

def listFindNodeWith (fuel : Nat) (list data : W64) : ListM W64 := do
  if listIsEmpty list then return nullptr
  findWithLoop data fuel list

def findAtLoop (index : Int) : (fuel : Nat) → (temp : W64) → (iterator : Int) → ListM W64
  | 0, _, _ => failure
  | fuel + 1, temp, iterator => do
    if listIsNotNull temp then
      if iterator = index then return temp
      findAtLoop index fuel (← load temp).next (toInt32 (iterator + 1))
    else return nullptr

def listFindAt (fuel : Nat) (list : W64) (index : Int) : ListM W64 := do
  if index ≤ (← listGetSize fuel list) ∧ index ≥ 0 then
    if listIsEmpty list then return nullptr
    findAtLoop index fuel list 0
  else return nullptr

def listConcatenate (fuel : Nat) (list1 list2 : W64) : ListM W64 := do
  let lastNode ← listGetTail fuel list1
  setNext lastNode list2
  setPrev list2 lastNode
  return list1

end Neutrino.Lists
