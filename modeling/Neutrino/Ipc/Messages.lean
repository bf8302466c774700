import Neutrino.Ipc.Overrun
import Neutrino.Library.Custody
import Neutrino.Machine.Common

namespace Neutrino.Ipc

open Library

def ipcSend : W32 := 0
def ipcReceive : W32 := 1
def ipcPeek : W32 := 2
def ipcBroadcast : W32 := 3

/-- The sender is given by the channel its agent is a field of. -/
structure Package where
  sender : Addr
  size : W32
  buffer : Addr

/-- The data are the bytes found at the payload. -/
structure SCIpcArgs where
  agentName : List Byte
  type : W32
  payload : Addr
  size : W32
  data : List Byte

/-- The channels, with the packages and payload buffers on the heap. Of a buffer only the bytes
    copied into it count; the length given to `memcpy` is an `int`. -/
structure Messages where
  channels : Channels
  packages : Addr → Option Package
  buffers : Addr → Option (List Byte)

def Messages.initial : Messages where
  channels := .initial
  packages := fun _ => none
  buffers := fun _ => none

/-- The two addresses `lmalloc` hands out for a package. -/
structure PackageMemory where
  package : Addr
  buffer : Addr

def newPackage (memory : PackageMemory) (agent : Addr) (data : List Byte) (size : W32)
    (s : Messages) : Addr × Messages :=
  (memory.package, { s with
    packages := Function.update s.packages memory.package (some ⟨agent, size, memory.buffer⟩)
    buffers := Function.update s.buffers memory.buffer (some (data.take size.toInt.toNat)) })

/-- What the caller gets: the result, the size left in its arguments, and the bytes copied to its
    payload. -/
structure IpcAnswer where
  result : SyscallResult
  size : W32
  copied : List Byte

def ChannelTransmitResult.syscall : ChannelTransmitResult → SyscallResult
  | .unauthorizedSender | .unauthorizedRecipient => .unauthorized
  | .success => .success
  | .bufferFull | .badSender | .badRecipient | .badPackage => .failure

def ChannelReceiveResult.syscall : ChannelReceiveResult → SyscallResult
  | .unauthorizedReceiver => .unauthorized
  | .bufferEmpty | .success => .success
  | .badReceiver => .failure

/-- The branch of `sys_ipc` for `IPC_SEND` and `IPC_BROADCAST`, made by a task with the channel
    `sender`. -/
def sysIpcSend (memory : PackageMemory) (sender : Addr) (args : SCIpcArgs) (s : Messages) :
    Option (IpcAnswer × Messages) :=
  if args.payload == 0 || args.size == 0 then some (⟨.invalid, args.size, []⟩, s)
  else (channelFindByAgentName s.channels args.agentName).bind fun dest =>
    if sender == 0 || dest == 0 then some (⟨.failure, args.size, []⟩, s)
    else
      let (pack, s) := newPackage memory sender args.data args.size s
      (channelTransmit sender dest pack s.channels).map fun (result, channels) =>
        (⟨result.syscall, args.size, []⟩, { s with channels })

def sysIpcReceive (recv : Addr) (args : SCIpcArgs) (s : Messages) :
    Option (IpcAnswer × Messages) :=
  if recv == 0 then some (⟨.failure, args.size, []⟩, s)
  else (channelReceive recv s.channels).bind fun ((result, msg), channels) =>
    let pack := msg.getD 0
    if pack != 0 && result == .success then
      (s.packages pack).bind fun package =>
        (s.buffers package.buffer).map fun bytes =>
          (⟨result.syscall, package.size, bytes.take package.size.toInt.toNat⟩,
            { s with channels, packages := Function.update s.packages pack none })
    else some (⟨result.syscall, args.size, []⟩, { s with channels })

def sysIpcPeek (recv : Addr) (args : SCIpcArgs) (s : Messages) :
    Option (IpcAnswer × Messages) :=
  if recv == 0 then some (⟨.failure, args.size, []⟩, s)
  else (channelPeek recv s.channels).bind fun ((result, msg), channels) =>
    let pack := msg.getD 0
    if pack != 0 && result == .success then
      (s.packages pack).map fun package =>
        (⟨result.syscall, package.size, []⟩, { s with channels })
    else some (⟨result.syscall, args.size, []⟩, { s with channels })

/-- `sys_ipc` for a task whose channel is `self`. -/
def sysIpc (memory : PackageMemory) (self : Addr) (args : SCIpcArgs) (s : Messages) :
    Option (IpcAnswer × Messages) :=
  if args.type > ipcBroadcast then some (⟨.invalid, args.size, []⟩, s)
  else if args.type == ipcSend || args.type == ipcBroadcast then sysIpcSend memory self args s
  else if args.type == ipcReceive then sysIpcReceive self args s
  else if args.type == ipcPeek then sysIpcPeek self args s
  else some (⟨.failure, args.size, []⟩, s)

abbrev QueuePlace := Addr × Nat

def queuedAt (s : Messages) (place : QueuePlace) : Option Addr :=
  (pending s.channels place.1)[place.2]?

def bufferAt (s : Messages) (place : QueuePlace) : Option Addr :=
  ((queuedAt s place).bind s.packages).map (·.buffer)

/-- Every allocated package, and every allocated buffer, belongs to exactly one package in
    exactly one queue. -/
def Messages.Kept (s : Messages) : Prop :=
  Housed (queuedAt s) (fun p => (s.packages p).isSome) ∧
    Housed (bufferAt s) (fun b => (s.buffers b).isSome)

variable {s s' : Messages}

section Places

variable {channel : Addr}
  (same : ∀ other, other ≠ channel → pending s'.channels other = pending s.channels other)
include same

theorem queuedAt_of_ne {place : QueuePlace} (apart : place.1 ≠ channel) :
    queuedAt s' place = queuedAt s place := by
  rw [queuedAt, queuedAt, same _ apart]

theorem queuedAt_append {pack : Addr}
    (longer : pending s'.channels channel = pending s.channels channel ++ [pack]) :
    queuedAt s' = Function.update (queuedAt s)
      (channel, (pending s.channels channel).length) (some pack) := by
  funext ⟨other, i⟩
  by_cases here : other = channel
  · subst here
    by_cases last : i = (pending s.channels other).length
    · subst last
      simp [queuedAt, longer]
    · rw [Function.update_of_ne (by simpa using last)]
      simp only [queuedAt, longer, List.getElem?_append]
      split
      · rfl
      · rw [List.getElem?_eq_none (by simp; omega), List.getElem?_eq_none (by omega)]
  · rw [Function.update_of_ne (by simp [here])]
    exact queuedAt_of_ne same here

end Places

theorem kept_of_same (kept : s.Kept) (queues : ∀ channel, pending s'.channels channel =
    pending s.channels channel) (packages : s'.packages = s.packages)
    (buffers : s'.buffers = s.buffers) : s'.Kept := by
  have places : queuedAt s' = queuedAt s := by
    funext place
    rw [queuedAt, queuedAt, queues]
  have bufferPlaces : bufferAt s' = bufferAt s := by
    funext place
    rw [bufferAt, bufferAt, places, packages]
  rw [Messages.Kept, places, bufferPlaces, packages, buffers]
  exact kept

namespace Messages.Kept

variable (kept : s.Kept)
include kept

theorem package_at {place : QueuePlace} {pack : Addr} (at_ : queuedAt s place = some pack) :
    ∃ package, s.packages pack = some package ∧ (s.buffers package.buffer).isSome ∧
      bufferAt s place = some package.buffer := by
  obtain ⟨package, allocated⟩ := Option.isSome_iff_exists.mp (kept.1.1 place pack at_)
  have held : bufferAt s place = some package.buffer := by simp [bufferAt, at_, allocated]
  exact ⟨package, allocated, kept.2.1 place _ held, held⟩

variable {pack buffer sender channel : Addr} {size : W32} {bytes : List Byte}

theorem sent (freshPackage : s.packages pack = none) (freshBuffer : s.buffers buffer = none)
    (packages : s'.packages = Function.update s.packages pack (some ⟨sender, size, buffer⟩))
    (buffers : s'.buffers = Function.update s.buffers buffer (some bytes))
    (longer : pending s'.channels channel = pending s.channels channel ++ [pack])
    (same : ∀ other, other ≠ channel → pending s'.channels other = pending s.channels other) :
    s'.Kept := by
  have places := queuedAt_append same longer
  have empty : queuedAt s (channel, (pending s.channels channel).length) = none := by
    simp [queuedAt]
  have bufferPlaces : bufferAt s' = Function.update (bufferAt s)
      (channel, (pending s.channels channel).length) (some buffer) := by
    funext place
    by_cases here : place = (channel, (pending s.channels channel).length)
    · subst here
      simp [bufferAt, places, packages]
    · rw [Function.update_of_ne here, bufferAt, bufferAt, places, Function.update_of_ne here,
        packages]
      cases at_ : queuedAt s place with
      | none => rfl
      | some other =>
        have apart : other ≠ pack := by
          rintro rfl
          obtain ⟨package, allocated, -⟩ := kept.package_at at_
          simp [freshPackage] at allocated
        simp [Function.update_of_ne apart]
  constructor
  · rw [places]
    refine (kept.1.add empty (by simp [freshPackage])).congr ?_
    intro other
    by_cases here : other = pack
    · simp [packages, here]
    · simp [packages, here]
  · rw [bufferPlaces]
    refine (kept.2.add (by simp [bufferAt, empty]) (by simp [freshBuffer])).congr ?_
    intro other
    by_cases here : other = buffer
    · simp [buffers, here]
    · simp [buffers, here]

theorem lost_package (freshPackage : s.packages pack = none)
    (allocated : (s'.packages pack).isSome)
    (queues : ∀ channel, pending s'.channels channel = pending s.channels channel) :
    ¬ s'.Kept := by
  intro kept'
  apply kept'.1.not_lost allocated
  intro place held
  have before : queuedAt s place = some pack := by rw [← held, queuedAt, queuedAt, queues]
  obtain ⟨package, old, -⟩ := kept.package_at before
  simp [freshPackage] at old

theorem lost_buffer {rest : List Addr} (before : pending s.channels channel = pack :: rest)
    (after : pending s'.channels channel = rest)
    (same : ∀ other, other ≠ channel → pending s'.channels other = pending s.channels other)
    (packages : s'.packages = Function.update s.packages pack none)
    (buffers : s'.buffers = s.buffers) : ¬ s'.Kept := by
  have front : queuedAt s (channel, 0) = some pack := by simp [queuedAt, before]
  obtain ⟨package, allocated, still, held⟩ := kept.package_at front
  intro kept'
  have still' : (s'.buffers package.buffer).isSome := buffers ▸ still
  apply kept'.2.not_lost still'
  -- a package still queued keeps its place but for the shift, so it has another buffer
  rintro ⟨other, i⟩ held'
  simp only [bufferAt, Option.map_eq_some_iff, Option.bind_eq_some_iff] at held'
  obtain ⟨package', ⟨pack', at_, found⟩, shares⟩ := held'
  have apart : pack' ≠ pack := by
    rintro rfl
    simp [packages] at found
  rw [packages, Function.update_of_ne apart] at found
  by_cases here : other = channel
  · subst here
    have at' : queuedAt s (other, i + 1) = some pack' := by
      rw [← at_]
      simp [queuedAt, before, after]
    have held'' : bufferAt s (other, i + 1) = some package.buffer := by
      simp [bufferAt, at', found, shares]
    simpa using kept.2.unique held'' held
  · rw [queuedAt_of_ne same here] at at_
    have held'' : bufferAt s (other, i) = some package.buffer := by
      simp [bufferAt, at_, found, shares]
    have places := kept.2.unique held'' held
    simp only [Prod.mk.injEq] at places
    exact here places.1

theorem lost_backlog (backlog : pending s.channels channel ≠ [])
    (after : pending s'.channels channel = [])
    (same : ∀ other, other ≠ channel → pending s'.channels other = pending s.channels other)
    (packages : s'.packages = s.packages) : ¬ s'.Kept := by
  obtain ⟨pack, rest, before⟩ := List.exists_cons_of_ne_nil backlog
  have front : queuedAt s (channel, 0) = some pack := by simp [queuedAt, before]
  intro kept'
  have still : (s'.packages pack).isSome := packages ▸ kept.1.1 _ _ front
  apply kept'.1.not_lost still
  rintro ⟨other, i⟩ held
  by_cases here : other = channel
  · subst here
    simp [queuedAt, after] at held
  · rw [queuedAt_of_ne same here] at held
    have places := kept.1.unique held front
    simp only [Prod.mk.injEq] at places
    exact here places.1

end Messages.Kept

inductive MessageCall
  | new (memory : ChannelMemory) (flags : W32) (agentName : Option (List Byte))
  | destroy (channel : Addr)
  | ipc (memory : PackageMemory) (self : Addr) (args : SCIpcArgs)

/-- No ring has been used outside the words that `NewChannel` allocates for it. -/
def Channels.contained (k : Channels) : Bool :=
  k.agentChannelMap.all fun data => ((k.channels data.channel).map fun c =>
    (accessed c.ring).all (· < channelBufferSize.toNat / 8)).getD true

/-- Behind the words of a ring lie other objects of the heap: there is no outcome once a call has
    used them. -/
def performMessage (s : Messages) : MessageCall → Option Messages
  | .new memory flags agentName =>
    some { s with channels := (newChannel memory flags agentName s.channels).2 }
  | .destroy channel => (destroyChannel channel s.channels).map fun channels => { s with channels }
  | .ipc memory self args => (sysIpc memory self args s).bind fun (_, s') =>
    if s'.channels.contained then some s' else none

/-- The allocator hands out what is not in use, and a channel is destroyed once. -/
def MessageAllowed (s : Messages) : MessageCall → Prop
  | .new memory _ _ => memory.channel ≠ 0#64 ∧ s.channels.channels memory.channel = none
  | .destroy channel => (s.channels.channels channel).isSome
  | .ipc memory _ _ =>
    memory.package ≠ 0#64 ∧ s.packages memory.package = none ∧ s.buffers memory.buffer = none

def MessageStep (s : Messages) (call : MessageCall) (s' : Messages) : Prop :=
  MessageAllowed s call ∧ performMessage s call = some s'

/-- A call that gets as far as making a package for `dest`. -/
def Packs (s : Messages) (self : Addr) (args : SCIpcArgs) (dest : Addr) : Prop :=
  args.payload ≠ 0#64 ∧ args.size ≠ 0#32 ∧ self ≠ 0#64 ∧ dest ≠ 0#64 ∧
    channelFindByAgentName s.channels args.agentName = some dest

/-- Whether nothing is lost: a message is sent only where it is accepted, none is received, and no
    channel is destroyed with a backlog. -/
def Thrifty (s : Messages) : MessageCall → Prop
  | .new _ _ _ => True
  | .destroy channel => pending s.channels channel = []
  | .ipc memory self args =>
    (args.type = ipcSend ∨ args.type = ipcBroadcast →
      ∀ dest, Packs s self args dest → Transmits s.channels self dest memory.package) ∧
    (args.type = ipcReceive → ¬ Receives s.channels self)

/-- The buffer has a word for the message that is sent. -/
def Roomy (s : Messages) : MessageCall → Prop
  | .new _ _ _ | .destroy _ => True
  | .ipc _ self args => args.type = ipcSend ∨ args.type = ipcBroadcast →
    ∀ dest, Packs s self args dest → (pending s.channels dest).length < channelBufferSize.toNat / 8

def Clean (s : Messages) (call : MessageCall) : Prop := Thrifty s call ∧ Roomy s call

theorem Channels.Sound.channelFindBy {k : Channels} (sound : k.Sound) (test : Agent → Bool)
    (entries : List ChannelAgentData) (listed : ∀ data ∈ entries, data ∈ k.agentChannelMap) :
    ∃ dest, channelFindBy k test entries = some dest := by
  induction entries with
  | nil => exact ⟨0, rfl⟩
  | cons data rest ih =>
    have member := listed data List.mem_cons_self
    have found : (k.channels data.agent).isSome := by
      rw [sound.agent data member, ← sound.live]
      exact List.mem_map_of_mem member
    obtain ⟨channel, at_⟩ := Option.isSome_iff_exists.mp found
    obtain ⟨dest, rest_⟩ := ih fun other later => listed other (List.mem_cons_of_mem _ later)
    simp only [Ipc.channelFindBy, at_, Option.bind_some]
    split
    · exact ⟨_, rfl⟩
    · exact ⟨dest, rest_⟩

theorem sysIpcSend_packs {memory : PackageMemory} {self dest : Addr} {args : SCIpcArgs}
    (packs : Packs s self args dest) {result : ChannelTransmitResult} {channels : Channels}
    (done : channelTransmit self dest memory.package s.channels = some (result, channels)) :
    sysIpcSend memory self args s = some (⟨result.syscall, args.size, []⟩,
      { (newPackage memory self args.data args.size s).2 with channels }) := by
  obtain ⟨payload, size, sender, target, found⟩ := packs
  simp [sysIpcSend, payload, size, found, sender, target, newPackage, done]

theorem sysIpcSend_quiet (sound : s.channels.Sound) {self : Addr} {args : SCIpcArgs}
    (memory : PackageMemory) (quiet : ∀ dest, ¬ Packs s self args dest) :
    ∃ answer, sysIpcSend memory self args s = some (answer, s) := by
  obtain ⟨dest, found⟩ := sound.channelFindBy (·.name == args.agentName) _ fun _ member => member
  have looked : channelFindByAgentName s.channels args.agentName = some dest := found
  unfold sysIpcSend
  split
  · exact ⟨_, rfl⟩
  · rename_i given
    rw [looked, Option.bind_some]
    split
    · exact ⟨_, rfl⟩
    · rename_i known
      simp only [Bool.or_eq_true, beq_iff_eq, not_or] at given known
      exact absurd ⟨given.1, given.2, known.1, known.2, looked⟩ (quiet dest)

structure Messages.Sound (s : Messages) : Prop where
  channels : s.channels.Sound
  null : s.packages 0#64 = none

/-- The messages of each channel lie in the first words of its buffer. -/
def Channels.Charts (k : Channels) : Prop :=
  ∀ channel c, k.channels channel = some c →
    (ringQueue c.ring).length ≤ 32 ∧ Charted (ringQueue c.ring).length 0 c.ring

/-- What holds along a run without leaks. -/
structure Messages.Good (s : Messages) : Prop extends s.Sound where
  charts : s.channels.Charts
  kept : s.Kept

theorem good_initial : Messages.initial.Good where
  channels := sound_initial
  null := rfl
  charts := by simp [Channels.Charts, Messages.initial, Channels.initial]
  kept := by
    constructor <;> constructor <;>
      simp [queuedAt, bufferAt, pending, Messages.initial, Channels.initial]

namespace Channels.Charts

variable {k : Channels} (charts : k.Charts)
include charts

theorem contained : k.contained = true := by
  refine List.all_eq_true.mpr fun data _ => ?_
  cases at_ : k.channels data.channel with
  | none => rfl
  | some c =>
    obtain ⟨few, charted⟩ := charts data.channel c at_
    have words : channelBufferSize.toNat / 8 = 32 := rfl
    simp only [Option.map_some, Option.getD_some, List.all_eq_true, decide_eq_true_eq, charted.mem_accessed, words]
    omega

theorem withChannel {address : Addr} {c : Channel} {count : Nat} (same : (ringQueue c.ring).length = count)
    (few : count ≤ 32) (charted : Charted count 0 c.ring) : (k.withChannel address c).Charts := by
  intro channel c' found
  rw [withChannel_channels] at found
  by_cases here : channel = address
  · subst here
    simp only [Function.update_self, Option.some.injEq] at found
    subst found same
    exact ⟨few, charted⟩
  · rw [Function.update_of_ne here] at found
    exact charts channel c' found

end Channels.Charts

/-- A call comes back and loses nothing exactly when the first condition holds. If so, it stays in
    the buffers exactly when the second one does. -/
def Outcome (outcome : Option (IpcAnswer × Messages)) (thrifty roomy : Prop) : Prop :=
  ∃ answer s', outcome = some (answer, s') ∧ s'.Sound ∧ (s'.Kept ↔ thrifty) ∧
    (thrifty → (s'.channels.contained = true ↔ roomy) ∧ (roomy → s'.channels.Charts))

namespace Messages.Good

variable (good : s.Good)
include good

theorem unchanged {outcome : Option (IpcAnswer × Messages)} {answer : IpcAnswer} {thrifty roomy : Prop}
    (done : outcome = some (answer, s)) (keeps : thrifty) (fits : roomy) : Outcome outcome thrifty roomy :=
  ⟨answer, s, done, good.toSound, iff_of_true good.kept keeps,
    fun _ => ⟨iff_of_true good.charts.contained fits, fun _ => good.charts⟩⟩

theorem send_roomy {dest pack : Addr} {recipient : Channel} {ring : RingBufHandle}
    (at_ : s.channels.channels dest = some recipient) (put : rbPut recipient.ring pack = (.success, ring))
    (longer : ringQueue ring = ringQueue recipient.ring ++ [pack]) :
    ((s.channels.withChannel dest { recipient with ring }).contained = true ↔
        (pending s.channels dest).length < channelBufferSize.toNat / 8) ∧
      ((pending s.channels dest).length < channelBufferSize.toNat / 8 →
        (s.channels.withChannel dest { recipient with ring }).Charts) := by
  obtain ⟨few, charted⟩ := good.charts dest recipient at_
  have next := charted.put put
  have words : channelBufferSize.toNat / 8 = 32 := rfl
  have count : (ringQueue ring).length = (ringQueue recipient.ring).length + 1 := by simp [longer]
  rw [pending_eq at_, words]
  have fits (room : (ringQueue recipient.ring).length < 32) :
      (s.channels.withChannel dest { recipient with ring }).Charts :=
    good.charts.withChannel count (by omega) next
  refine ⟨⟨fun inside => ?_, fun room => (fits room).contained⟩, fits⟩
  -- the last word used is the one behind the messages there were
  obtain ⟨data, member, here⟩ := List.mem_map.mp ((good.channels.live dest).mpr (by rw [at_]; rfl))
  have all := List.all_eq_true.mp inside data member
  rw [here, withChannel_channels, Function.update_self] at all
  simp only [Option.map_some, Option.getD_some, List.all_eq_true, decide_eq_true_eq, next.mem_accessed, words] at all
  have last := all (ringQueue recipient.ring).length
  omega

theorem send_outcome {memory : PackageMemory} {self : Addr} {args : SCIpcArgs}
    (fresh : MessageAllowed s (.ipc memory self args)) :
    Outcome (sysIpcSend memory self args s)
      (∀ dest, Packs s self args dest → Transmits s.channels self dest memory.package)
      (∀ dest, Packs s self args dest → (pending s.channels dest).length < channelBufferSize.toNat / 8) := by
  obtain ⟨nonnull, freshPackage, freshBuffer⟩ := fresh
  by_cases packs : ∃ dest, Packs s self args dest
  · obtain ⟨dest, packs⟩ := packs
    have only : ∀ {P : Addr → Prop}, (∀ dest, Packs s self args dest → P dest) ↔ P dest := by
      intro P
      refine ⟨fun all => all dest packs, fun here other packs' => ?_⟩
      cases Option.some.inj (packs'.2.2.2.2.symm.trans packs.2.2.2.2)
      exact here
    rw [only, only]
    have null : (newPackage memory self args.data args.size s).2.packages 0#64 = none := by
      simp only [newPackage, Function.update_of_ne nonnull.symm, good.null]
    by_cases transmits : Transmits s.channels self dest memory.package
    · obtain ⟨recipient, ring, at_, put, longer, holds, done⟩ :=
        good.channels.transmit_success transmits
      refine ⟨_, _, sysIpcSend_packs packs done, ⟨good.channels.withChannel at_ holds, null⟩,
        iff_of_true ?_ transmits, fun _ => good.send_roomy at_ put longer⟩
      have joined : pending (s.channels.withChannel dest { recipient with ring }) dest =
          pending s.channels dest ++ [memory.package] := by
        rw [pending_withChannel_self, longer, pending_eq at_]
      exact good.kept.sent freshPackage freshBuffer rfl rfl joined
        fun _ apart => pending_withChannel_of_ne _ _ apart
    · obtain ⟨result, -, done⟩ := good.channels.transmit_refused transmits
      refine ⟨_, _, sysIpcSend_packs packs done, ⟨good.channels, null⟩, iff_of_false ?_ transmits,
        fun accepted => absurd accepted transmits⟩
      have allocated : ((newPackage memory self args.data args.size s).2.packages
          memory.package).isSome := by simp [newPackage]
      exact good.kept.lost_package freshPackage allocated fun _ => rfl
  · obtain ⟨answer, done⟩ := sysIpcSend_quiet good.channels memory (not_exists.mp packs)
    exact good.unchanged done (fun dest packs' => absurd ⟨dest, packs'⟩ packs)
      fun dest packs' => absurd ⟨dest, packs'⟩ packs

theorem front {self pack : Addr} {rest : List Addr} {receiver : Channel}
    (at_ : s.channels.channels self = some receiver)
    (queue : ringQueue receiver.ring = pack :: rest) :
    self ≠ 0#64 ∧ pack ≠ 0#64 ∧ ∃ package bytes, s.packages pack = some package ∧
      s.buffers package.buffer = some bytes := by
  have first : queuedAt s (self, 0) = some pack := by
    simp [queuedAt, pending_eq at_, queue]
  obtain ⟨package, allocated, held, -⟩ := good.kept.package_at first
  obtain ⟨bytes, content⟩ := Option.isSome_iff_exists.mp held
  refine ⟨?_, ?_, package, bytes, allocated, content⟩
  · rintro rfl
    simp [good.channels.null] at at_
  · rintro rfl
    simp [good.null] at allocated

theorem receive_outcome (self : Addr) (args : SCIpcArgs) :
    Outcome (sysIpcReceive self args s) (¬ Receives s.channels self) True := by
  by_cases receives : Receives s.channels self
  · obtain ⟨receiver, pack, ring, -, at_, shorter, -, ⟨-, holds, done⟩, -⟩ := good.channels.receive_success receives
    obtain ⟨nonnull, sent, package, bytes, allocated, content⟩ := good.front at_ shorter
    have before : pending s.channels self = pack :: ringQueue ring := by rw [pending_eq at_, shorter]
    have after : pending (s.channels.withChannel self { receiver with ring }) self = ringQueue ring :=
      pending_withChannel_self ..
    refine ⟨⟨.success, package.size, bytes.take package.size.toInt.toNat⟩,
      ⟨s.channels.withChannel self { receiver with ring }, Function.update s.packages pack none,
        s.buffers⟩, ?_, ⟨good.channels.withChannel at_ holds, ?_⟩, iff_of_false ?_ ?_,
      fun refused => absurd receives refused⟩
    · simp [sysIpcReceive, nonnull, done, sent, allocated, content, ChannelReceiveResult.syscall]
    · simp only [Function.update_of_ne sent.symm, good.null]
    · exact good.kept.lost_buffer before after
        (fun _ apart => pending_withChannel_of_ne _ _ apart) rfl rfl
    · exact fun refused => refused receives
  · obtain ⟨result, refusal, done, -⟩ := good.channels.receive_refused receives
    by_cases null : self = 0#64
    · exact good.unchanged (by simp [sysIpcReceive, null]; rfl) receives trivial
    · exact good.unchanged (by simp [sysIpcReceive, null, done]; rfl) receives trivial

theorem peek_outcome (self : Addr) (args : SCIpcArgs) :
    Outcome (sysIpcPeek self args s) True True := by
  by_cases receives : Receives s.channels self
  · obtain ⟨receiver, pack, _, ring, at_, before, after, -, peek, holds, done⟩ := good.channels.receive_success receives
    obtain ⟨nonnull, sent, package, bytes, allocated, content⟩ := good.front at_ before
    obtain ⟨few, charted⟩ := good.charts self receiver at_
    have charts : (s.channels.withChannel self { receiver with ring }).Charts :=
      good.charts.withChannel (by rw [after, before]) few (charted.peek (by simp [before]) peek)
    refine ⟨⟨.success, package.size, []⟩,
      ⟨s.channels.withChannel self { receiver with ring }, s.packages, s.buffers⟩, ?_,
      ⟨good.channels.withChannel at_ holds, good.null⟩, iff_of_true ?_ trivial,
      fun _ => ⟨iff_of_true charts.contained trivial, fun _ => charts⟩⟩
    · simp [sysIpcPeek, nonnull, done, sent, allocated, ChannelReceiveResult.syscall]
    · refine kept_of_same good.kept ?_ rfl rfl
      intro other
      by_cases here : other = self
      · subst here
        rw [pending_withChannel_self, after, pending_eq at_, before]
      · exact pending_withChannel_of_ne _ _ here
  · obtain ⟨result, refusal, -, done⟩ := good.channels.receive_refused receives
    by_cases null : self = 0#64
    · exact good.unchanged (by simp [sysIpcPeek, null]; rfl) trivial trivial
    · exact good.unchanged (by simp [sysIpcPeek, null, done]; rfl) trivial trivial

theorem ipc_outcome {memory : PackageMemory} {self : Addr} {args : SCIpcArgs}
    (fresh : MessageAllowed s (.ipc memory self args)) :
    Outcome (sysIpc memory self args s) (Thrifty s (.ipc memory self args)) (Roomy s (.ipc memory self args)) := by
  unfold sysIpc
  split
  · rename_i large
    have other : ¬ (args.type = ipcSend ∨ args.type = ipcBroadcast) ∧ args.type ≠ ipcReceive := by
      refine ⟨?_, ?_⟩
      · rintro (send | send) <;> rw [send] at large <;> exact absurd large (by decide)
      · intro receive
        rw [receive] at large
        exact absurd large (by decide)
    exact good.unchanged rfl ⟨fun sends => absurd sends other.1, fun receives => absurd receives other.2⟩
      fun sends => absurd sends other.1
  split
  · rename_i sends
    have sends : args.type = ipcSend ∨ args.type = ipcBroadcast := by simpa using sends
    have other : args.type ≠ ipcReceive := by
      rcases sends with send | send <;> rw [send] <;> decide
    simpa [Thrifty, Roomy, sends, other] using good.send_outcome fresh
  split
  · rename_i notSends receives
    have notSends : ¬ (args.type = ipcSend ∨ args.type = ipcBroadcast) := by simpa using notSends
    have receives : args.type = ipcReceive := by simpa using receives
    have thrifty : Thrifty s (.ipc memory self args) ↔ ¬ Receives s.channels self :=
      ⟨fun clean => clean.2 receives, fun none => ⟨fun sends => absurd sends notSends, fun _ => none⟩⟩
    have roomy : Roomy s (.ipc memory self args) ↔ True := iff_of_true (fun sends => absurd sends notSends) trivial
    rw [thrifty, roomy]
    exact good.receive_outcome self args
  · rename_i notSends notReceives
    have notSends : ¬ (args.type = ipcSend ∨ args.type = ipcBroadcast) := by simpa using notSends
    have notReceives : args.type ≠ ipcReceive := by simpa using notReceives
    have thrifty : Thrifty s (.ipc memory self args) :=
      ⟨fun sends => absurd sends notSends, fun receives => absurd receives notReceives⟩
    have roomy : Roomy s (.ipc memory self args) := fun sends => absurd sends notSends
    split
    · simpa [thrifty, roomy] using good.peek_outcome self args
    · exact good.unchanged rfl thrifty roomy

theorem new_good {memory : ChannelMemory} {flags : W32} {name : Option (List Byte)}
    (allowed : MessageAllowed s (.new memory flags name)) :
    Messages.Good { s with channels := (newChannel memory flags name s.channels).2 } := by
  obtain ⟨nonnull, fresh⟩ := allowed
  refine ⟨⟨good.channels.newChannel memory flags name fresh nonnull, good.null⟩, ?_,
    kept_of_same good.kept (pending_newChannel flags name fresh) rfl rfl⟩
  intro channel c at_
  simp only [newChannel] at at_
  by_cases here : channel = memory.channel
  · subst here
    simp only [Function.update_self, Option.some.injEq] at at_
    subst at_
    have empty := (holds_init memory.ring ⟨memory.buffer, []⟩ (show 0 < channelBufferSize.toNat by decide)).queue
    simp only [empty]
    exact ⟨by decide, charted_init memory.ring memory.buffer⟩
  · rw [Function.update_of_ne here] at at_
    exact good.charts channel c at_

theorem destroy_iff {channel : Addr} (allowed : MessageAllowed s (.destroy channel)) :
    ∃ s', performMessage s (.destroy channel) = some s' ∧ (s'.Kept ↔ pending s.channels channel = []) ∧
      (s'.Kept → s'.Good) := by
  obtain ⟨c, at_⟩ := Option.isSome_iff_exists.mp allowed
  obtain ⟨next, done, sound, cleared⟩ := good.channels.destroyChannel at_
  have queues := pending_removed cleared
  refine ⟨{ s with channels := next }, by simp [performMessage, done], ?_, fun kept => ⟨⟨sound, good.null⟩, ?_, kept⟩⟩
  · by_cases empty : pending s.channels channel = []
    · refine iff_of_true (kept_of_same good.kept ?_ rfl rfl) empty
      intro other
      by_cases here : other = channel
      · rw [queues, if_pos here, here, empty]
      · rw [queues, if_neg here]
    · refine iff_of_false ?_ empty
      have gone : pending next channel = [] := by rw [queues, if_pos rfl]
      exact good.kept.lost_backlog empty gone (fun other here => by rw [queues, if_neg here]) rfl
  · intro other c' found
    simp only [cleared] at found
    by_cases here : other = channel
    · simp [here] at found
    · rw [Function.update_of_ne here] at found
      exact good.charts other c' found

theorem call_iff {call : MessageCall} (allowed : MessageAllowed s call) :
    ((∃ s', performMessage s call = some s' ∧ s'.Kept) ↔ Clean s call) ∧
      ∀ s', performMessage s call = some s' → s'.Kept → s'.Good := by
  cases call with
  | new memory flags name =>
    have next := good.new_good allowed
    refine ⟨iff_of_true ⟨_, rfl, next.kept⟩ ⟨trivial, trivial⟩, fun s' done _ => ?_⟩
    cases done
    exact next
  | destroy channel =>
    obtain ⟨s', done, exactly, next⟩ := good.destroy_iff allowed
    refine ⟨⟨?_, fun clean => ⟨s', done, exactly.mpr clean.1⟩⟩, fun s'' done' kept => ?_⟩
    · rintro ⟨s'', done', kept⟩
      cases done.symm.trans done'
      exact ⟨exactly.mp kept, trivial⟩
    · cases done.symm.trans done'
      exact next kept
  | ipc memory self args =>
    obtain ⟨answer, s', done, sound, exactly, inside⟩ := good.ipc_outcome allowed
    have performed : performMessage s (.ipc memory self args) = if s'.channels.contained then some s' else none := by
      simp [performMessage, done]
    rw [performed]
    have rest : ∀ s'', (if s'.channels.contained then some s' else none) = some s'' → s''.Kept →
        Clean s (.ipc memory self args) ∧ s''.Good := by
      intro s'' taken kept
      split at taken
      · rename_i contained
        cases taken
        have thrifty := exactly.mp kept
        have roomy := (inside thrifty).1.mp contained
        exact ⟨⟨thrifty, roomy⟩, sound, (inside thrifty).2 roomy, kept⟩
      · cases taken
    refine ⟨⟨fun ⟨s'', taken, kept⟩ => (rest s'' taken kept).1, fun ⟨thrifty, roomy⟩ => ?_⟩,
      fun s'' taken kept => (rest s'' taken kept).2⟩
    exact ⟨s', if_pos ((inside thrifty).1.mpr roomy), exactly.mpr thrifty⟩

end Messages.Good

theorem good_step {call : MessageCall} (good : s.Good)
    (step : Clean s call ∧ MessageStep s call s') : s'.Good := by
  obtain ⟨clean, allowed, done⟩ := step
  obtain ⟨exactly, next⟩ := good.call_iff allowed
  obtain ⟨s'', done', kept⟩ := exactly.mpr clean
  cases done.symm.trans done'
  exact next s' done kept

/-- While every call made is a clean one, every package and every buffer is queued exactly once;
    the next call has an outcome that keeps it so exactly when it is a clean one too. -/
theorem messages_kept_iff {calls : List MessageCall}
    (run : Run (fun s call s' => Clean s call ∧ MessageStep s call s') .initial calls s) :
    s.Kept ∧ ∀ call, MessageAllowed s call →
      ((∃ s', performMessage s call = some s' ∧ s'.Kept) ↔ Clean s call) := by
  have good : s.Good := run.invariant (fun _ _ _ good step => good_step good step) good_initial
  exact ⟨good.kept, fun call allowed => (good.call_iff allowed).1⟩

def mailbox : MessageCall := .new freshMemory (channelCanReceive ||| channelCanSend) none

/-- A call of the task with the mailbox, on one byte and naming its own channel. -/
def ipcCall (memory : PackageMemory) (type : W32) : MessageCall :=
  .ipc memory 0x1000 ⟨[], type, 0x4000, 1, [7]⟩

/-- A message in the mailbox. -/
theorem messages_kept_iff_sent :
    ∃ s, Run (fun s call s' => Clean s call ∧ MessageStep s call s') .initial
        [mailbox, ipcCall ⟨0x2000, 0x3000⟩ ipcSend] s ∧ pending s.channels 0x1000 = [0x2000] ∧
      (s.buffers 0x3000).isSome ∧ s.Kept := by
  have clean : Clean ((performMessage .initial mailbox).getD .initial) (ipcCall ⟨0x2000, 0x3000⟩ ipcSend) := by
    refine ⟨⟨fun _ dest packs => ?_, fun receives => absurd receives (by decide)⟩, fun _ dest packs => ?_⟩
    · obtain rfl : 0x1000 = dest := Option.some.inj packs.2.2.2.2
      exact ⟨⟨_, rfl, by decide⟩, by decide, _, rfl, by decide, rfl⟩
    · obtain rfl : 0x1000 = dest := Option.some.inj packs.2.2.2.2
      decide
  have run : Run (fun s call s' => Clean s call ∧ MessageStep s call s') .initial
      [mailbox, ipcCall ⟨0x2000, 0x3000⟩ ipcSend] _ :=
    .cons ⟨⟨trivial, trivial⟩, ⟨by decide, rfl⟩, rfl⟩ (.cons ⟨clean, ⟨by decide, rfl, rfl⟩, rfl⟩ (.nil _))
  exact ⟨_, run, rfl, rfl, (messages_kept_iff run).1⟩

/-- A message sent and received leaves its buffer behind. -/
theorem messages_leak :
    ∃ s, Run MessageStep .initial [mailbox, ipcCall ⟨0x2000, 0x3000⟩ ipcSend,
        ipcCall ⟨0x5000, 0x6000⟩ ipcReceive] s ∧ ¬ s.Kept := by
  have run : Run MessageStep .initial [mailbox, ipcCall ⟨0x2000, 0x3000⟩ ipcSend,
      ipcCall ⟨0x5000, 0x6000⟩ ipcReceive] _ :=
    .cons ⟨⟨by decide, rfl⟩, rfl⟩ (.cons ⟨⟨by decide, rfl, rfl⟩, rfl⟩
      (.cons ⟨⟨by decide, rfl, rfl⟩, rfl⟩ (.nil _)))
  refine ⟨_, run, fun kept => ?_⟩
  obtain ⟨place, held, -⟩ := kept.2.2 0x3000 rfl
  obtain ⟨package, found, -⟩ := Option.map_eq_some_iff.mp held
  obtain ⟨pack, -, allocated⟩ := Option.bind_eq_some_iff.mp found
  -- the one package there was has been freed
  have freed : ∀ other, Function.update (Function.update (fun _ : Addr => (none : Option Package))
      0x2000 (some ⟨0x1000, 1, 0x3000⟩)) 0x2000 none other = none := by
    intro other
    rw [Function.update_idem]
    by_cases here : other = 0x2000 <;> simp [Function.update_apply]
  exact absurd ((freed pack).symm.trans allocated) (by simp)

end Neutrino.Ipc
