import Neutrino.Ipc.Channel
import Neutrino.Library.Ranges
import Neutrino.Lists.Sequences

namespace Neutrino.Registry

open Library Neutrino.Lists
open Ipc (Addr Byte RingBuf RingBufHandle ChannelAgentData rbInit channelBufferSize agentNameMax)

/-- The characters of a string, with the zeros from its end on. -/
def chars (string : List Byte) (i : Nat) : Byte := string.getD i 0

/-- There is no outcome when the iterations run out. -/
def strcmp (s1 s2 : Nat → Byte) : (fuel : Nat) → (i : Nat) → Option Bool
  | 0, _ => none
  | fuel + 1, i =>
    if s1 i ≠ s2 i then some false
    else if s1 i = 0 ∨ s2 i = 0 then some true
    else strcmp s1 s2 fuel (i + 1)

/-- `Agent`, with the array `name[AGENT_NAME_MAX+1]`. -/
structure Agent where
  id : W64
  name : Nat → Byte

def memcpy (source dest : Nat → Byte) (nbytes : Nat) (i : Nat) : Byte :=
  if i < nbytes then source i else dest i

/-- A null pointer is no name. -/
def agentInit (id : W64) (name : Option (List Byte)) : Agent where
  id := id
  name :=
    let cleared : Nat → Byte := fun _ => 0
    match name with
    | none => cleared
    | some name =>
      if name.length > 0 then memcpy (chars name) cleared (min name.length agentNameMax) else cleared

/-- `Channel`, with what its ring points to. -/
structure Channel where
  flags : W32
  agent : Agent
  ring : RingBufHandle
  ringAddress : Addr
  buffer : Addr

/-- The two static variables, and the objects on the kernel heap that they lead to. -/
structure Heap where
  globalAgentId : W64
  agentChannelMap : Addr
  nodes : LinkStore W64 W64
  datas : Addr → Option ChannelAgentData
  channels : Addr → Option Channel

def Heap.initial : Heap where
  globalAgentId := 0
  agentChannelMap := nullptr
  nodes := fun _ => none
  datas := fun _ => none
  channels := fun _ => none

/-- What the allocator hands out to `NewChannel`, in the order of its requests, with the contents
    that are not overwritten. -/
structure Objects where
  channel : Addr
  buffer : Addr
  words : Nat → W64
  ring : Addr
  ringBefore : RingBuf
  data : Addr
  node : Addr
  nodeBefore : ListNode

/-- The loop `while (p != nullptr)` of the functions below: the channel of the first entry that
    passes the test, with its position. -/
def walk (h : Heap) (test : ChannelAgentData → Option Bool) : (fuel : Nat) → (p : Addr) → (i : W32) →
    Option (Option (Addr × W32))
  | 0, _, _ => none
  | fuel + 1, p, i =>
    if p = nullptr then some none
    else do
      let node ← h.nodes p
      let data ← h.datas node.data
      if ← test data then some (some (data.channel, i)) else walk h test fuel node.next (i + 1)

def channelAgentRemove (fuel : Nat) (channel : Addr) (h : Heap) : Option (Bool × Heap) := do
  match ← walk h (fun data => some (data.channel == channel)) fuel h.agentChannelMap 0 with
  | none => some (false, h)
  | some (_, i) =>
    let (map, lists) ← listDeleteAt fuel h.agentChannelMap (toInt32 i.toNat) ⟨h.nodes, []⟩
    some (true, { h with agentChannelMap := map, nodes := lists.cells })

def channelExists (fuel : Nat) (channel : Addr) (h : Heap) : Option Bool :=
  (walk h (fun data => some (data.channel == channel)) fuel h.agentChannelMap 0).map Option.isSome

/-- The stores of `NewChannel`, where `map` is the list that it ends with. -/
def Heap.withChannel (h : Heap) (objects : Objects) (flags : W32) (agentName : Option (List Byte)) (map : Addr)
    (nodes : LinkStore W64 W64) : Heap where
  globalAgentId := h.globalAgentId + 1
  agentChannelMap := map
  nodes := nodes
  datas := Function.update h.datas objects.data (some ⟨objects.channel, objects.channel⟩)
  channels := Function.update h.channels objects.channel (some {
    flags
    ring := rbInit objects.ringBefore (some ⟨objects.words, []⟩) channelBufferSize
    ringAddress := objects.ring
    buffer := objects.buffer
    agent := agentInit h.globalAgentId agentName })

def newChannel (fuel : Nat) (objects : Objects) (flags : W32) (agentName : Option (List Byte)) (h : Heap) :
    Option (Addr × Heap) := do
  let (map, lists) ← listAppend fuel h.agentChannelMap objects.data ⟨h.nodes, [(objects.node, objects.nodeBefore)]⟩
  some (objects.channel, h.withChannel objects flags agentName map lists.cells)

/-- The ring, the buffer and the channel itself go back to the allocator, the entry's
    `ChannelAgentData` does not. -/
def destroyChannel (fuel : Nat) (channel : Addr) (h : Heap) : Option Heap := do
  let _ ← h.channels channel
  let (_, h) ← channelAgentRemove fuel channel h
  some { h with channels := Function.update h.channels channel none }

/-- An agent is a field of the channel that the entry refers to. -/
def agentOf (h : Heap) (data : ChannelAgentData) : Option Agent := (h.channels data.agent).map (·.agent)

/-- A null pointer if there is no such entry. -/
def channelFindBy (fuel : Nat) (test : Agent → Option Bool) (h : Heap) : Option Addr :=
  (walk h (fun data => (agentOf h data).bind test) fuel h.agentChannelMap 0).map fun found =>
    (found.map Prod.fst).getD nullptr

def channelFindByAgentId (fuel : Nat) (id : W64) (h : Heap) : Option Addr :=
  channelFindBy fuel (fun agent => some (agent.id == id)) h

def channelFindByAgentName (fuel : Nat) (name : List Byte) (h : Heap) : Option Addr :=
  channelFindBy fuel (fun agent => strcmp agent.name (chars name) fuel 0) h

/-- The 512 GiB of the kernel heap's slot. -/
def kernelHeap : Range := ⟨heapOffset.toNat, 2 ^ 39⟩

def block (address : Addr) (size : Nat) : Range := ⟨address.toNat, size⟩

/-- The blocks of the objects, with the sizes of `Channel`, `CHANNEL_BUFFER_SIZE`, `RingBuf`,
    `ChannelAgentData` and `List`. -/
def Objects.blocks (objects : Objects) : List Range :=
  [block objects.channel 80, block objects.buffer 256, block objects.ring 24, block objects.data 16,
    block objects.node 24]

inductive Heap.Uses (h : Heap) : Range → Prop
  | channel {a c} : h.channels a = some c → Uses h (block a 80)
  | buffer {a c} : h.channels a = some c → Uses h (block c.buffer 256)
  | ring {a c} : h.channels a = some c → Uses h (block c.ringAddress 24)
  | data {a d} : h.datas a = some d → Uses h (block a 16)
  | node {a n} : h.nodes a = some n → Uses h (block a 24)

/-- The allocator takes the objects from the kernel heap, clear of each other and of what is in use. -/
structure Placed (h : Heap) (objects : Objects) : Prop where
  within : ∀ r ∈ objects.blocks, r.Within kernelHeap
  apart : objects.blocks.Pairwise Range.Disjoint
  unused : ∀ r ∈ objects.blocks, ∀ used, h.Uses used → used.Disjoint r

inductive Call
  | new (objects : Objects) (flags : W32) (agentName : Option (List Byte))
  | destroy (channel : Addr)

/-- No list has more nodes than there are addresses, so a loop over one ends by then if it does. -/
def addressCount : Nat := 2 ^ 64

/-- A call that comes back. Names are strings without a zero in them. -/
def Step (h : Heap) (call : Call) (next : Heap) : Prop :=
  match call with
  | .new objects flags agentName => Placed h objects ∧ (∀ name ∈ agentName, 0#8 ∉ name) ∧
      newChannel addressCount objects flags agentName h = some (objects.channel, next)
  | .destroy channel => (h.channels channel).isSome ∧ destroyChannel addressCount channel h = some next

end Neutrino.Registry
