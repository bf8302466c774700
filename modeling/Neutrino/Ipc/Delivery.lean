import Neutrino.Ipc.Channel

namespace Neutrino.Ipc

open Library

inductive ChannelCall
  | new (memory : ChannelMemory) (flags : W32) (agentName : Option (List Byte))
  | destroy (channel : Addr)
  | transmit (self dest msg : Addr)
  | receive (self : Addr)
  | peek (self : Addr)

inductive ChannelAnswer
  | created (channel : Addr)
  | destroyed
  | transmitted (result : ChannelTransmitResult)
  | received (result : ChannelReceiveResult) (msg : Option Addr)
  | peeked (result : ChannelReceiveResult) (msg : Option Addr)

def ChannelAnswer.Refusal : ChannelAnswer → Prop
  | .created _ | .destroyed => False
  | .transmitted result => result ≠ .success
  | .received result _ | .peeked result _ => result ≠ .success

abbrev ChannelEvent := ChannelCall × ChannelAnswer

def perform (k : Channels) : ChannelCall → Option (ChannelAnswer × Channels)
  | .new memory flags agentName =>
    some (.created (newChannel memory flags agentName k).1, (newChannel memory flags agentName k).2)
  | .destroy channel => (destroyChannel channel k).map (.destroyed, ·)
  | .transmit self dest msg => (channelTransmit self dest msg k).map (.map .transmitted id)
  | .receive self => (channelReceive self k).map (.map (fun r => .received r.1 r.2) id)
  | .peek self => (channelPeek self k).map (.map (fun r => .peeked r.1 r.2) id)

/-- The allocator hands out an address that is not in use, and a channel is destroyed once. -/
def Allowed (k : Channels) : ChannelCall → Prop
  | .new memory _ _ => memory.channel ≠ 0#64 ∧ k.channels memory.channel = none
  | .destroy channel => (k.channels channel).isSome
  | .transmit _ _ _ | .receive _ | .peek _ => True

def ChannelStep (k : Channels) (event : ChannelEvent) (k' : Channels) : Prop :=
  Allowed k event.1 ∧ perform k event.1 = some (event.2, k')

/-- Everything a call can do. -/
inductive Effect (k : Channels) : ChannelEvent → Channels → Prop
  | refused {call : ChannelCall} {answer : ChannelAnswer} (refusal : answer.Refusal)
      (used : ∀ memory flags name, call ≠ .new memory flags name) : Effect k (call, answer) k
  | created (memory : ChannelMemory) (flags : W32) (name : Option (List Byte))
      (nonnull : memory.channel ≠ 0#64) (fresh : k.channels memory.channel = none) :
      Effect k (.new memory flags name, .created memory.channel) (newChannel memory flags name k).2
  | destroyed {channel : Addr} {next : Channels} (sound : next.Sound)
      (gone : next.channels = Function.update k.channels channel none) :
      Effect k (.destroy channel, .destroyed) next
  | sent {self dest msg : Addr} {recipient : Channel} {ring : RingBufHandle}
      (transmits : Transmits k self dest msg) (found : k.channels dest = some recipient)
      (put : rbPut recipient.ring msg = (.success, ring))
      (longer : ringQueue ring = ringQueue recipient.ring ++ [msg])
      (holds : Holds channelBufferSize ring (ringQueue ring)) :
      Effect k (.transmit self dest msg, .transmitted .success)
        (k.withChannel dest { recipient with ring })
  | received {self msg : Addr} {receiver : Channel} {ring : RingBufHandle}
      (found : k.channels self = some receiver)
      (get : rbGet receiver.ring = ((.success, some msg), ring))
      (shorter : ringQueue receiver.ring = msg :: ringQueue ring)
      (holds : Holds channelBufferSize ring (ringQueue ring)) :
      Effect k (.receive self, .received .success (some msg))
        (k.withChannel self { receiver with ring })
  | peeked {self msg : Addr} {rest : List Addr} {receiver : Channel} {ring : RingBufHandle}
      (found : k.channels self = some receiver)
      (peek : rbPeek receiver.ring = ((.success, some msg), ring))
      (before : ringQueue receiver.ring = msg :: rest) (after : ringQueue ring = msg :: rest)
      (holds : Holds channelBufferSize ring (ringQueue ring)) :
      Effect k (.peek self, .peeked .success (some msg)) (k.withChannel self { receiver with ring })

variable {k k' : Channels} {event : ChannelEvent}

theorem Channels.Sound.performed (sound : k.Sound) (call : ChannelCall) (allowed : Allowed k call) :
    ∃ answer k', perform k call = some (answer, k') ∧ Effect k (call, answer) k' := by
  cases call with
  | new memory flags name => exact ⟨_, _, rfl, .created memory flags name allowed.1 allowed.2⟩
  | destroy channel =>
    obtain ⟨c, found⟩ := Option.isSome_iff_exists.mp allowed
    obtain ⟨next, done, kept, gone⟩ := sound.destroyChannel found
    exact ⟨_, _, by simp [perform, done], .destroyed kept gone⟩
  | transmit self dest msg =>
    by_cases transmits : Transmits k self dest msg
    · obtain ⟨recipient, ring, found, put, longer, holds, done⟩ := sound.transmit_success transmits
      exact ⟨_, _, by simp [perform, done], .sent transmits found put longer holds⟩
    · obtain ⟨result, refusal, done⟩ := sound.transmit_refused transmits
      exact ⟨.transmitted result, k, by simp [perform, done], .refused refusal nofun⟩
  | receive self =>
    by_cases receives : Receives k self
    · obtain ⟨receiver, msg, ring, -, found, shorter, -, ⟨get, holds, done⟩, -⟩ := sound.receive_success receives
      exact ⟨_, _, by simp [perform, done], .received found get shorter holds⟩
    · obtain ⟨result, refusal, done, -⟩ := sound.receive_refused receives
      exact ⟨.received result none, k, by simp [perform, done], .refused refusal nofun⟩
  | peek self =>
    by_cases receives : Receives k self
    · obtain ⟨receiver, msg, _, ring, found, before, after, -, peek, holds, done⟩ := sound.receive_success receives
      exact ⟨_, _, by simp [perform, done], .peeked found peek before after holds⟩
    · obtain ⟨result, refusal, -, done⟩ := sound.receive_refused receives
      exact ⟨.peeked result none, k, by simp [perform, done], .refused refusal nofun⟩

theorem Channels.Sound.effect (sound : k.Sound) (step : ChannelStep k event k') :
    Effect k event k' := by
  obtain ⟨call, answer⟩ := event
  obtain ⟨allowed, done⟩ := step
  obtain ⟨answer', next, done', effect⟩ := sound.performed call allowed
  rw [done] at done'
  cases done'
  exact effect

theorem Effect.sound (effect : Effect k event k') (sound : k.Sound) : k'.Sound := by
  cases effect with
  | refused => exact sound
  | created memory flags name nonnull fresh => exact sound.newChannel memory flags name fresh nonnull
  | destroyed kept => exact kept
  | sent _ found _ _ holds => exact sound.withChannel found holds
  | received found _ _ holds => exact sound.withChannel found holds
  | peeked found _ _ _ holds => exact sound.withChannel found holds

theorem ChannelStep.sound (step : ChannelStep k event k') (sound : k.Sound) : k'.Sound :=
  (sound.effect step).sound sound

theorem pending_newChannel {memory : ChannelMemory} (flags : W32) (name : Option (List Byte))
    (fresh : k.channels memory.channel = none) (channel : Addr) :
    pending (newChannel memory flags name k).2 channel = pending k channel := by
  by_cases same : channel = memory.channel
  · subst same
    have empty := (holds_init memory.ring ⟨memory.buffer, []⟩
      (show 0 < channelBufferSize.toNat by decide)).queue
    simp [newChannel, pending, empty, fresh]
  · simp [newChannel, pending, Function.update_of_ne same]

theorem pending_removed {gone : Addr} (cleared : k'.channels = Function.update k.channels gone none)
    (channel : Addr) :
    pending k' channel = if channel = gone then [] else pending k channel := by
  by_cases same : channel = gone
  · simp [pending, cleared, same]
  · simp [pending, cleared, same]

/-- The packages sent to and received from each channel since it was made. -/
structure Traffic where
  sent : Addr → List Addr
  received : Addr → List Addr

def Traffic.record (t : Traffic) : ChannelEvent → Traffic
  | (.new memory _ _, _) => {
      sent := Function.update t.sent memory.channel []
      received := Function.update t.received memory.channel [] }
  | (.transmit _ dest msg, .transmitted .success) =>
    { t with sent := Function.update t.sent dest (t.sent dest ++ [msg]) }
  | (.receive self, .received .success (some msg)) =>
    { t with received := Function.update t.received self (t.received self ++ [msg]) }
  | _ => t

def traffic (events : List ChannelEvent) : Traffic :=
  events.foldl Traffic.record ⟨fun _ => [], fun _ => []⟩

theorem record_refusal (t : Traffic) {call : ChannelCall} {answer : ChannelAnswer}
    (refusal : answer.Refusal) (used : ∀ memory flags name, call ≠ .new memory flags name) :
    t.record (call, answer) = t := by
  cases call <;> cases answer <;> simp_all [Traffic.record, ChannelAnswer.Refusal]

/-- What was sent to a live channel is what was received from it, followed by what it holds. -/
def Delivered (t : Traffic) (k : Channels) : Prop :=
  k.Sound ∧ ∀ channel, (k.channels channel).isSome →
    t.sent channel = t.received channel ++ pending k channel

theorem delivered_step {t : Traffic} (delivered : Delivered t k) (step : ChannelStep k event k') :
    Delivered (t.record event) k' := by
  obtain ⟨sound, kept⟩ := delivered
  refine ⟨step.sound sound, ?_⟩
  intro channel live
  cases sound.effect step with
  | refused refusal used =>
    rw [record_refusal t refusal used]
    exact kept channel live
  | created memory flags name nonnull fresh =>
    rw [pending_newChannel flags name fresh]
    by_cases same : channel = memory.channel
    · subst same
      simp [Traffic.record, pending, fresh]
    · simp only [newChannel, Function.update_of_ne same] at live
      simpa [Traffic.record, Function.update_of_ne same] using kept channel live
  | @destroyed gone next _ cleared =>
    by_cases same : channel = gone
    · simp [cleared, same] at live
    · rw [cleared, Function.update_of_ne same] at live
      rw [pending_removed cleared, if_neg same]
      exact kept channel live
  | @sent self dest msg recipient ring _ found _ longer =>
    by_cases same : channel = dest
    · subst same
      have before := kept channel (by simp [found])
      simp [Traffic.record, pending_withChannel_self, longer, before, pending_eq found]
    · rw [withChannel_channels, Function.update_of_ne same] at live
      rw [pending_withChannel_of_ne k _ same]
      simpa [Traffic.record, Function.update_of_ne same] using kept channel live
  | @received self msg receiver ring found _ shorter =>
    by_cases same : channel = self
    · subst same
      have before := kept channel (by simp [found])
      simp [Traffic.record, pending_withChannel_self, before, pending_eq found, shorter]
    · rw [withChannel_channels, Function.update_of_ne same] at live
      rw [pending_withChannel_of_ne k _ same]
      simpa [Traffic.record, Function.update_of_ne same] using kept channel live
  | @peeked self msg rest receiver ring found _ before after =>
    by_cases same : channel = self
    · subst same
      have kept' := kept channel (by simp [found])
      simpa [Traffic.record, pending_withChannel_self, after, pending_eq found, before] using kept'
    · rw [withChannel_channels, Function.update_of_ne same] at live
      rw [pending_withChannel_of_ne k _ same]
      simpa [Traffic.record] using kept channel live

theorem delivered_run {events : List ChannelEvent} (run : Run ChannelStep .initial events k) :
    Delivered (traffic events) k := by
  have initial : Delivered ⟨fun _ => [], fun _ => []⟩ .initial :=
    ⟨sound_initial, by simp [Channels.initial]⟩
  refine Run.recorded ?_ run initial
  intro t k event k' delivered step
  exact delivered_step delivered step

/-- A queue changes at its ends only: a package enters behind the others when a sender allowed to
    send hands it to a recipient allowed to receive, and one leaves at the front. -/
def Entry (k : Channels) (event : ChannelEvent) (k' : Channels) (channel : Addr) : Prop :=
  pending k' channel <:+ pending k channel ∨
    ∃ self msg sender recipient, event = (.transmit self channel msg, .transmitted .success) ∧
      channelExists k self = true ∧ k.channels self = some sender ∧
      sender.flags &&& channelCanSend ≠ 0#32 ∧
      channelExists k channel = true ∧ k.channels channel = some recipient ∧
      recipient.flags &&& channelCanReceive ≠ 0#32 ∧
      pending k' channel = pending k channel ++ [msg]

theorem Channels.Sound.entry (sound : k.Sound) (step : ChannelStep k event k') (channel : Addr) :
    Entry k event k' channel := by
  cases sound.effect step with
  | refused => exact .inl (List.suffix_refl _)
  | created memory flags name nonnull fresh =>
    rw [Entry, pending_newChannel flags name fresh]
    exact .inl (List.suffix_refl _)
  | @destroyed gone next _ cleared =>
    rw [Entry, pending_removed cleared]
    split
    · exact .inl List.nil_suffix
    · exact .inl (List.suffix_refl _)
  | @sent self dest msg recipient ring transmits found _ longer =>
    by_cases same : channel = dest
    · subst same
      obtain ⟨⟨sender, from_, sends⟩, -, recipient', found', receives, -⟩ := transmits
      exact .inr ⟨self, msg, sender, recipient', rfl, sound.found_registered from_, from_, sends,
        sound.found_registered found, found', receives,
        by rw [pending_withChannel_self, longer, pending_eq found]⟩
    · rw [Entry, pending_withChannel_of_ne k _ same]
      exact .inl (List.suffix_refl _)
  | @received self msg receiver ring found _ shorter =>
    by_cases same : channel = self
    · subst same
      rw [Entry, pending_withChannel_self, pending_eq found, shorter]
      exact .inl (List.suffix_cons _ _)
    · rw [Entry, pending_withChannel_of_ne k _ same]
      exact .inl (List.suffix_refl _)
  | @peeked self msg rest receiver ring found _ before after =>
    by_cases same : channel = self
    · subst same
      rw [Entry, pending_withChannel_self, pending_eq found, before, after]
      exact .inl (List.suffix_refl _)
    · rw [Entry, pending_withChannel_of_ne k _ same]
      exact .inl (List.suffix_refl _)

/-- The events that take the front package of a channel away. -/
def Takes (channel : Addr) : ChannelEvent → Prop
  | (.receive self, .received .success _) => self = channel
  | (.destroy gone, _) => gone = channel
  | _ => False

def Fronted (channel msg : Addr) (k : Channels) : Prop :=
  k.Sound ∧ (k.channels channel).isSome ∧ (pending k channel).head? = some msg

theorem fronted_step {channel msg : Addr} (fronted : Fronted channel msg k)
    (spared : ¬ Takes channel event) (step : ChannelStep k event k') :
    Fronted channel msg k' := by
  obtain ⟨sound, live, front⟩ := fronted
  refine ⟨step.sound sound, ?_⟩
  cases sound.effect step with
  | refused => exact ⟨live, front⟩
  | created memory flags name nonnull fresh =>
    have apart : channel ≠ memory.channel := by
      rintro rfl
      simp [fresh] at live
    rw [pending_newChannel flags name fresh]
    exact ⟨by simpa [newChannel, Function.update_of_ne apart] using live, front⟩
  | @destroyed gone next _ cleared =>
    have apart : channel ≠ gone := fun same => spared same.symm
    rw [pending_removed cleared, if_neg apart, cleared, Function.update_of_ne apart]
    exact ⟨live, front⟩
  | @sent self dest msg' recipient ring _ found _ longer =>
    by_cases same : channel = dest
    · subst same
      rw [pending_eq found] at front
      rw [pending_withChannel_self, longer, List.head?_append, front]
      simp
    · rw [withChannel_channels, Function.update_of_ne same, pending_withChannel_of_ne k _ same]
      exact ⟨live, front⟩
  | @received self msg' receiver ring found _ shorter =>
    have apart : channel ≠ self := fun same => spared same.symm
    rw [withChannel_channels, Function.update_of_ne apart, pending_withChannel_of_ne k _ apart]
    exact ⟨live, front⟩
  | @peeked self msg' rest receiver ring found _ before after =>
    by_cases same : channel = self
    · subst same
      rw [pending_eq found, before] at front
      rw [pending_withChannel_self, after]
      exact ⟨by simp, front⟩
    · rw [withChannel_channels, Function.update_of_ne same, pending_withChannel_of_ne k _ same]
      exact ⟨live, front⟩

theorem Channels.Sound.peeked_front (sound : k.Sound) {channel : Addr} {msg : Option Addr}
    (step : ChannelStep k (.peek channel, .peeked .success msg) k') :
    ∃ front, msg = some front ∧ Fronted channel front k' := by
  have kept := step.sound sound
  cases sound.effect step with
  | refused refusal => exact absurd rfl refusal
  | @peeked _ front rest receiver ring found _ before after =>
    exact ⟨front, rfl, kept, by simp, by rw [pending_withChannel_self, after, List.head?_cons]⟩

theorem Fronted.received_front {channel front : Addr} {msg : Option Addr}
    (fronted : Fronted channel front k)
    (step : ChannelStep k (.receive channel, .received .success msg) k') : msg = some front := by
  obtain ⟨sound, -, first⟩ := fronted
  cases sound.effect step with
  | refused refusal => exact absurd rfl refusal
  | @received _ msg' receiver ring found _ shorter =>
    rw [pending_eq found, shorter] at first
    exact first

/-- Whatever calls are made, and in whatever order: each live channel hands out a prefix of what
    was sent to it, in order; the package a peek showed is the next one received; a package
    enters a ring only from an allowed sender to an allowed recipient; a refused call changes
    nothing; and every call comes back. -/
theorem channels_reliable {events : List ChannelEvent} (run : Run ChannelStep .initial events k) :
    (∀ channel, (k.channels channel).isSome →
      (traffic events).received channel <+: (traffic events).sent channel) ∧
    (∀ channel msg peeked later before after msg',
      ChannelStep k (.peek channel, .peeked .success msg) peeked →
      Run ChannelStep peeked later before → (∀ event ∈ later, ¬ Takes channel event) →
      ChannelStep before (.receive channel, .received .success msg') after → msg' = msg) ∧
    (∀ event k', ChannelStep k event k' → ∀ channel, Entry k event k' channel) ∧
    (∀ event k', ChannelStep k event k' → event.2.Refusal → k' = k) ∧
    (∀ call, Allowed k call → (perform k call).isSome) := by
  obtain ⟨sound, delivered⟩ := delivered_run run
  refine ⟨?_, ?_, fun _ _ step => sound.entry step, ?_, ?_⟩
  · intro channel live
    rw [delivered channel live]
    exact List.prefix_append _ _
  · intro channel msg peeked later before after msg' peek between spared receive
    obtain ⟨front, rfl, fronted⟩ := sound.peeked_front peek
    have still := between.invariant_on
      (fun _ _ _ kept spared step => fronted_step kept spared step) spared fronted
    exact still.received_front receive
  · intro event k' step refusal
    cases sound.effect step with
    | refused => rfl
    | created | destroyed => exact refusal.elim
    | sent | received | peeked => exact absurd rfl refusal
  · intro call allowed
    obtain ⟨answer, k', done, -⟩ := sound.performed call allowed
    simp [done]

def freshMemory : ChannelMemory where
  channel := 0x1000
  buffer := fun _ => 0
  ring := ⟨none, 0, 0, 0⟩

def creation : ChannelEvent :=
  (.new freshMemory (channelCanReceive ||| channelCanSend) none, .created 0x1000)

def toItself (msg : Addr) : ChannelEvent :=
  (.transmit 0x1000 0x1000 msg, .transmitted .success)

def echo : List ChannelEvent :=
  [creation, toItself 5, (.receive 0x1000, .received .success (some 5)), toItself 6]

theorem channels_reliable_echo :
    ∃ k, Run ChannelStep .initial echo k ∧
      (traffic echo).received 0x1000 <+: (traffic echo).sent 0x1000 := by
  have run : Run ChannelStep .initial echo _ :=
    .cons ⟨⟨by decide, rfl⟩, rfl⟩ (.cons ⟨trivial, rfl⟩
      (.cons ⟨trivial, rfl⟩ (.cons ⟨trivial, rfl⟩ (.nil _))))
  exact ⟨_, run, (channels_reliable run).1 0x1000 rfl⟩

end Neutrino.Ipc
