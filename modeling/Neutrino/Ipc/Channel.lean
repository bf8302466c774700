import Neutrino.Ipc.RingBuf

namespace Neutrino.Ipc

abbrev Addr := W64
abbrev Byte := BitVec 8

def agentNameMax : Nat := 32

/-- The name is the bytes before the terminating zero. -/
structure Agent where
  id : W64
  name : List Byte

def channelCanReceive : W32 := 1
def channelCanSend : W32 := 2

/-- `sizeof(uintptr_t)*32`. -/
def channelBufferSize : W32 := 8 * 32

inductive ChannelTransmitResult
  | success
  | bufferFull
  | badSender
  | unauthorizedSender
  | badRecipient
  | unauthorizedRecipient
  | badPackage
deriving DecidableEq

/-- `ChannelReceiveResult` and `ChannelPeekResult`, which have the same members. -/
inductive ChannelReceiveResult
  | success
  | bufferEmpty
  | badReceiver
  | unauthorizedReceiver
deriving DecidableEq

/-- The words at `_buffer` are those behind the ring's own pointer. -/
structure Channel where
  flags : W32
  agent : Agent
  ring : RingBufHandle

/-- The agent is given by the channel it is a field of. -/
structure ChannelAgentData where
  channel : Addr
  agent : Addr

structure Channels where
  globalAgentId : W64
  agentChannelMap : List ChannelAgentData
  /-- The `Channel` objects on the heap. -/
  channels : Addr → Option Channel

def Channels.initial : Channels where
  globalAgentId := 0
  agentChannelMap := []
  channels := fun _ => none

def Channels.withChannel (k : Channels) (address : Addr) (channel : Channel) : Channels :=
  { k with channels := Function.update k.channels address (some channel) }

/-- What the allocator hands out for a new channel: its address, and the words it finds in the
    buffer and in the ring. -/
structure ChannelMemory where
  channel : Addr
  buffer : Nat → W64
  ring : RingBuf

def agentInit (id : W64) (name : Option (List Byte)) : Agent where
  id := id
  name := (name.getD []).take agentNameMax

def channelAgentRemove (k : Channels) (channel : Addr) : Bool × Channels :=
  match k.agentChannelMap.findIdx? (·.channel == channel) with
  | some i => (true, { k with agentChannelMap := k.agentChannelMap.eraseIdx i })
  | none => (false, k)

def channelExists (k : Channels) (channel : Addr) : Bool :=
  k.agentChannelMap.any (·.channel == channel)

def newChannel (memory : ChannelMemory) (flags : W32) (agentName : Option (List Byte))
    (k : Channels) : Addr × Channels :=
  let channel : Channel := {
    flags
    ring := rbInit memory.ring (some ⟨memory.buffer, []⟩) channelBufferSize
    agent := agentInit k.globalAgentId agentName }
  (memory.channel, {
    globalAgentId := k.globalAgentId + 1
    agentChannelMap := k.agentChannelMap ++ [⟨memory.channel, memory.channel⟩]
    channels := Function.update k.channels memory.channel (some channel) })

/-- There is no outcome when there is no channel at the address. -/
def destroyChannel (channel : Addr) (k : Channels) : Option Channels :=
  (k.channels channel).map fun _ =>
    let removed := (channelAgentRemove k channel).2
    { removed with channels := Function.update removed.channels channel none }

/-- The walk of `channel_find_by_agent_id` and `channel_find_by_agent_name`. -/
def channelFindBy (k : Channels) (test : Agent → Bool) : List ChannelAgentData → Option Addr
  | [] => some 0
  | data :: rest =>
    (k.channels data.agent).bind fun channel =>
      if test channel.agent then some data.channel else channelFindBy k test rest

def channelFindByAgentId (k : Channels) (id : W64) : Option Addr :=
  channelFindBy k (·.id == id) k.agentChannelMap

def channelFindByAgentName (k : Channels) (name : List Byte) : Option Addr :=
  channelFindBy k (·.name == name) k.agentChannelMap

def channelTransmit (self dest msg : Addr) (k : Channels) :
    Option (ChannelTransmitResult × Channels) :=
  if !(self != 0 && channelExists k self) then some (.badSender, k)
  else (k.channels self).bind fun sender =>
    if sender.flags &&& channelCanSend == 0 then some (.unauthorizedSender, k)
    else if !(dest != 0 && channelExists k dest) then some (.badRecipient, k)
    else (k.channels dest).bind fun recipient =>
      if recipient.flags &&& channelCanReceive == 0 then some (.unauthorizedRecipient, k)
      else if msg == 0 then some (.badPackage, k)
      else if rbIsFull recipient.ring then some (.bufferFull, k)
      else some (.success,
        k.withChannel dest { recipient with ring := (rbPut recipient.ring msg).2 })

/-- The address is what is stored through `msg`. -/
def channelReceive (self : Addr) (k : Channels) :
    Option ((ChannelReceiveResult × Option Addr) × Channels) :=
  if !(self != 0 && channelExists k self) then some ((.badReceiver, none), k)
  else (k.channels self).bind fun receiver =>
    if receiver.flags &&& channelCanReceive == 0 then some ((.unauthorizedReceiver, none), k)
    else if rbIsEmpty receiver.ring then some ((.bufferEmpty, none), k)
    else some ((.success, (rbGet receiver.ring).1.2),
      k.withChannel self { receiver with ring := (rbGet receiver.ring).2 })

def channelPeek (self : Addr) (k : Channels) :
    Option ((ChannelReceiveResult × Option Addr) × Channels) :=
  if !(self != 0 && channelExists k self) then some ((.badReceiver, none), k)
  else (k.channels self).bind fun receiver =>
    if receiver.flags &&& channelCanReceive == 0 then some ((.unauthorizedReceiver, none), k)
    else if rbIsEmpty receiver.ring then some ((.bufferEmpty, none), k)
    else some ((.success, (rbPeek receiver.ring).1.2),
      k.withChannel self { receiver with ring := (rbPeek receiver.ring).2 })

/-- The packages a ring holds, oldest first. -/
def ringQueue (self : RingBufHandle) : List Addr :=
  match self with
  | none => []
  | some ring => (ring.buffer.map ring.queue).getD []

theorem Holds.queue {max : W32} {self : RingBufHandle} {queue : List W64}
    (holds : Holds max self queue) : ringQueue self = queue := by
  obtain ⟨ring, storage, rfl, sound, -, rfl⟩ := holds
  simp [ringQueue, sound.buffer]

def pending (k : Channels) (channel : Addr) : List Addr :=
  match k.channels channel with
  | none => []
  | some c => ringQueue c.ring

/-- The registry lists the channels on the heap, each once, and their rings are in order. -/
structure Channels.Sound (k : Channels) : Prop where
  nodup : (k.agentChannelMap.map (·.channel)).Nodup
  agent : ∀ data ∈ k.agentChannelMap, data.agent = data.channel
  live : ∀ channel, channel ∈ k.agentChannelMap.map (·.channel) ↔ (k.channels channel).isSome
  null : k.channels 0#64 = none
  ring : ∀ channel c, k.channels channel = some c →
    Holds channelBufferSize c.ring (ringQueue c.ring)

theorem sound_initial : Channels.initial.Sound := by
  constructor <;> simp [Channels.initial]

theorem pending_eq {k : Channels} {channel : Addr} {c : Channel}
    (at_ : k.channels channel = some c) : pending k channel = ringQueue c.ring := by
  simp [pending, at_]

@[simp]
theorem withChannel_channels (k : Channels) (address : Addr) (c : Channel) :
    (k.withChannel address c).channels = Function.update k.channels address (some c) := rfl

@[simp]
theorem withChannel_agentChannelMap (k : Channels) (address : Addr) (c : Channel) :
    (k.withChannel address c).agentChannelMap = k.agentChannelMap := rfl

theorem pending_withChannel_self (k : Channels) (address : Addr) (c : Channel) :
    pending (k.withChannel address c) address = ringQueue c.ring := by
  simp [pending]

theorem pending_withChannel_of_ne (k : Channels) {address other : Addr} (c : Channel)
    (apart : other ≠ address) : pending (k.withChannel address c) other = pending k other := by
  simp [pending, Function.update_of_ne apart]

namespace Channels.Sound

variable {k : Channels} (sound : k.Sound)
include sound

theorem exists_iff (channel : Addr) :
    (channel != 0 && channelExists k channel) = (k.channels channel).isSome := by
  have registered : channelExists k channel = (k.channels channel).isSome := by
    rw [Bool.eq_iff_iff, ← sound.live]
    simp [channelExists]
  rw [registered]
  by_cases null : channel = 0#64
  · subst null
    simp [sound.null]
  · simp [null]

theorem withChannel {address : Addr} {c c' : Channel} (at_ : k.channels address = some c)
    (holds : Holds channelBufferSize c'.ring (ringQueue c'.ring)) :
    (k.withChannel address c').Sound where
  nodup := sound.nodup
  agent := sound.agent
  live channel := by
    rw [withChannel_channels]
    by_cases same : channel = address
    · subst same
      have listed := sound.live channel
      simp only [at_, Option.isSome_some, iff_true] at listed
      simpa using listed
    · rw [Function.update_of_ne same]
      exact sound.live channel
  null := by
    rw [withChannel_channels, Function.update_of_ne, sound.null]
    rintro rfl
    rw [sound.null] at at_
    cases at_
  ring channel c'' found := by
    rw [withChannel_channels] at found
    by_cases same : channel = address
    · subst same
      simp only [Function.update_self, Option.some.injEq] at found
      subst found
      exact holds
    · rw [Function.update_of_ne same] at found
      exact sound.ring channel c'' found

theorem found_registered {channel : Addr} {c : Channel} (at_ : k.channels channel = some c) :
    channelExists k channel = true := by
  have listed := sound.exists_iff channel
  simp only [at_, Option.isSome_some, Bool.and_eq_true] at listed
  exact listed.2

theorem newChannel (memory : ChannelMemory) (flags : W32) (name : Option (List Byte))
    (fresh : k.channels memory.channel = none) (nonnull : memory.channel ≠ 0#64) :
    (newChannel memory flags name k).2.Sound where
  nodup := by
    have absent : memory.channel ∉ k.agentChannelMap.map (·.channel) := by
      rw [sound.live, fresh]
      simp
    simpa [Ipc.newChannel, List.nodup_append, sound.nodup] using absent
  agent data member := by
    rcases List.mem_append.mp member with old | new
    · exact sound.agent data old
    · rw [List.mem_singleton.mp new]
  live channel := by
    have listed := sound.live channel
    simp only [Ipc.newChannel, List.map_append, List.map_cons, List.map_nil, List.mem_append,
      List.mem_singleton, listed]
    by_cases same : channel = memory.channel
    · simp [same]
    · simp [same]
  null := by
    simp only [Ipc.newChannel]
    rw [Function.update_of_ne nonnull.symm, sound.null]
  ring channel c found := by
    simp only [Ipc.newChannel] at found
    by_cases same : channel = memory.channel
    · subst same
      simp only [Function.update_self, Option.some.injEq] at found
      subst found
      have holds := holds_init memory.ring ⟨memory.buffer, []⟩
        (show 0 < channelBufferSize.toNat by decide)
      rw [holds.queue]
      exact holds
    · rw [Function.update_of_ne same] at found
      exact sound.ring channel c found

omit sound in
theorem channelAgentRemove_eq (k : Channels) (channel : Addr) :
    (channelAgentRemove k channel).2 =
      { k with agentChannelMap := k.agentChannelMap.eraseP (·.channel == channel) } := by
  rw [List.eraseP_eq_eraseIdx, channelAgentRemove]
  cases k.agentChannelMap.findIdx? (·.channel == channel) <;> rfl

omit sound in
theorem map_eraseP_channel (entries : List ChannelAgentData) (channel : Addr) :
    (entries.eraseP (·.channel == channel)).map (·.channel) =
      (entries.map (·.channel)).erase channel := by
  rw [List.erase_eq_eraseP', List.eraseP_map]
  rfl

theorem destroyChannel {channel : Addr} {c : Channel} (at_ : k.channels channel = some c) :
    ∃ next, destroyChannel channel k = some next ∧ next.Sound ∧
      next.channels = Function.update k.channels channel none := by
  simp only [Ipc.destroyChannel, at_, Option.map_some, channelAgentRemove_eq]
  refine ⟨_, rfl, ?_, rfl⟩
  constructor
  · rw [map_eraseP_channel]
    exact sound.nodup.erase _
  · intro data member
    exact sound.agent data (List.mem_of_mem_eraseP member)
  · intro other
    simp only [map_eraseP_channel, sound.nodup.mem_erase_iff, sound.live other]
    by_cases same : other = channel
    · simp [same]
    · simp [same]
  · have apart : (0#64 : Addr) ≠ channel := by
      rintro rfl
      rw [sound.null] at at_
      cases at_
    simp only [Function.update_of_ne apart, sound.null]
  · intro other c' found
    simp only at found
    by_cases same : other = channel
    · simp [same] at found
    · rw [Function.update_of_ne same] at found
      exact sound.ring other c' found

end Channels.Sound

/-- The conditions `channel_transmit` checks, in a state where the registered channels are the
    ones that exist. -/
def Transmits (k : Channels) (self dest msg : Addr) : Prop :=
  (∃ sender, k.channels self = some sender ∧ sender.flags &&& channelCanSend ≠ 0#32) ∧
    msg ≠ 0#64 ∧ ∃ recipient, k.channels dest = some recipient ∧
      recipient.flags &&& channelCanReceive ≠ 0#32 ∧ rbIsFull recipient.ring = false

def Receives (k : Channels) (self : Addr) : Prop :=
  ∃ receiver, k.channels self = some receiver ∧
    receiver.flags &&& channelCanReceive ≠ 0#32 ∧ rbIsEmpty receiver.ring = false

namespace Channels.Sound

variable {k : Channels} (sound : k.Sound)
include sound

theorem transmit_refused {self dest msg : Addr} (refused : ¬ Transmits k self dest msg) :
    ∃ result, result ≠ .success ∧ channelTransmit self dest msg k = some (result, k) := by
  simp only [channelTransmit, sound.exists_iff]
  cases from_ : k.channels self with
  | none => exact ⟨.badSender, by simp⟩
  | some sender =>
    by_cases sends : sender.flags &&& channelCanSend = 0#32
    · exact ⟨.unauthorizedSender, by simp [sends]⟩
    cases target : k.channels dest with
    | none => exact ⟨.badRecipient, by simp [sends]⟩
    | some recipient =>
      by_cases receives : recipient.flags &&& channelCanReceive = 0#32
      · exact ⟨.unauthorizedRecipient, by simp [sends, receives]⟩
      by_cases null : msg = 0#64
      · exact ⟨.badPackage, by simp [sends, receives, null]⟩
      by_cases full : rbIsFull recipient.ring = true
      · exact ⟨.bufferFull, by simp [sends, receives, null, full]⟩
      · exact absurd ⟨⟨sender, from_, sends⟩, null, recipient, target, receives, by simpa using full⟩
          refused

theorem transmit_success {self dest msg : Addr} (transmits : Transmits k self dest msg) :
    ∃ recipient ring, k.channels dest = some recipient ∧
      rbPut recipient.ring msg = (.success, ring) ∧
      ringQueue ring = ringQueue recipient.ring ++ [msg] ∧
      Holds channelBufferSize ring (ringQueue ring) ∧
      channelTransmit self dest msg k =
        some (.success, k.withChannel dest { recipient with ring }) := by
  obtain ⟨⟨sender, from_, sends⟩, nonnull, recipient, target, receives, room⟩ := transmits
  have holds := sound.ring dest recipient target
  obtain ⟨same, next⟩ := ringStep_refines holds (.put msg)
  have matching := holds.matches
  obtain ⟨ring, at_, agrees⟩ := matching
  have short : (ringQueue recipient.ring).length < channelBufferSize.toNat - 1 := by
    have open_ := agrees.isFull
    rw [← at_, room] at open_
    obtain ⟨ring', storage, same', inside, size, queue⟩ := holds
    have bound := inside.length_lt
    rw [queue, size] at bound
    have notFull := of_decide_eq_false open_.symm
    omega
  simp only [queueStep, if_pos short, ringStep, Prod.mk.injEq, Option.some.injEq] at same next
  have result : rbPut recipient.ring msg = (.success, (rbPut recipient.ring msg).2) :=
    Prod.ext same.1 rfl
  refine ⟨recipient, (rbPut recipient.ring msg).2, target, result, next.queue, ?_, ?_⟩
  · rw [next.queue]
    exact next
  · simp only [channelTransmit, sound.exists_iff, from_, target]
    simp [sends, receives, nonnull, room]

theorem receive_refused {self : Addr} (refused : ¬ Receives k self) :
    ∃ result, result ≠ .success ∧ channelReceive self k = some ((result, none), k) ∧
      channelPeek self k = some ((result, none), k) := by
  simp only [channelReceive, channelPeek, sound.exists_iff]
  cases at_ : k.channels self with
  | none => exact ⟨.badReceiver, by simp⟩
  | some receiver =>
    by_cases receives : receiver.flags &&& channelCanReceive = 0#32
    · exact ⟨.unauthorizedReceiver, by simp [receives]⟩
    by_cases empty : rbIsEmpty receiver.ring = true
    · exact ⟨.bufferEmpty, by simp [receives, empty]⟩
    · exact absurd ⟨receiver, at_, receives, by simpa using empty⟩ refused

theorem receive_success {self : Addr} (receives : Receives k self) :
    ∃ receiver msg got peeked, k.channels self = some receiver ∧ ringQueue receiver.ring = msg :: ringQueue got ∧
      ringQueue peeked = msg :: ringQueue got ∧
      (rbGet receiver.ring = ((.success, some msg), got) ∧ Holds channelBufferSize got (ringQueue got) ∧
        channelReceive self k = some ((.success, some msg), k.withChannel self { receiver with ring := got })) ∧
      rbPeek receiver.ring = ((.success, some msg), peeked) ∧ Holds channelBufferSize peeked (ringQueue peeked) ∧
      channelPeek self k = some ((.success, some msg), k.withChannel self { receiver with ring := peeked }) := by
  obtain ⟨receiver, at_, allowed, some⟩ := receives
  have holds := sound.ring self receiver at_
  obtain ⟨ring, same, agrees⟩ := holds.matches
  have nonempty := agrees.isEmpty
  rw [← same, some] at nonempty
  cases queue : ringQueue receiver.ring with
  | nil => simp [queue] at nonempty
  | cons msg rest =>
    obtain ⟨first, shorter⟩ := ringStep_refines holds .get
    obtain ⟨first', longer⟩ := ringStep_refines holds .peek
    simp only [queueStep, queue, ringStep, Prod.mk.injEq, Option.some.injEq] at first shorter first' longer
    have got : rbGet receiver.ring = ((.success, .some msg), (rbGet receiver.ring).2) :=
      Prod.ext (Prod.ext first.1 first.2) rfl
    have peeked : rbPeek receiver.ring = ((.success, .some msg), (rbPeek receiver.ring).2) :=
      Prod.ext (Prod.ext first'.1 first'.2) rfl
    refine ⟨receiver, msg, (rbGet receiver.ring).2, (rbPeek receiver.ring).2, at_, by rw [shorter.queue, queue],
      by rw [shorter.queue, longer.queue], ⟨got, ?_, ?_⟩, peeked, ?_, ?_⟩
    · rwa [shorter.queue]
    · simp only [channelReceive, sound.exists_iff, at_]
      simp [allowed, some, first.2]
    · rwa [longer.queue]
    · simp only [channelPeek, sound.exists_iff, at_]
      simp [allowed, some, first'.2]

end Channels.Sound

end Neutrino.Ipc
