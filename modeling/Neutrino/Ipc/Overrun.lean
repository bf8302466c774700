import Neutrino.Ipc.Delivery

namespace Neutrino.Ipc

open Library

/-- The indices used so far in the words behind a ring. -/
def accessed (self : RingBufHandle) : List Nat :=
  match self with
  | none => []
  | some ring => (ring.buffer.map (·.accessed)).getD []

/-- Where the cursors of a channel's ring are, and which words were used, after so many packages
    sent and received. -/
def Charted (sent received : Nat) (self : RingBufHandle) : Prop :=
  ∃ ring storage, self = some ring ∧ ring.buffer = some storage ∧ ring.max = channelBufferSize ∧
    ring.head.toNat = sent % 256 ∧ ring.tail.toNat = received % 256 ∧
    ∀ i, i ∈ storage.accessed ↔ i < sent ∧ i < 256

theorem charted_init (ring : RingBuf) (words : Nat → W64) :
    Charted 0 0 (rbInit ring (some ⟨words, []⟩) channelBufferSize) :=
  ⟨{ buffer := some ⟨words, []⟩, head := 0, tail := 0, max := channelBufferSize }, ⟨words, []⟩,
    by simp [rbInit, rbClear, channelBufferSize], rfl, rfl, rfl, rfl, by simp⟩

theorem advance_mod {cursor : W32} {count : Nat} (at_ : cursor.toNat = count % 256) :
    ((cursor + 1) % channelBufferSize).toNat = (count + 1) % 256 := by
  have size : channelBufferSize.toNat = 256 := rfl
  have inside : cursor.toNat < channelBufferSize.toNat := by omega
  rw [toNat_advance inside, at_, size]
  omega

namespace Charted

variable {sent received : Nat} {self next : RingBufHandle}

variable (charted : Charted sent received self)
include charted

theorem put {data : W64} (done : rbPut self data = (.success, next)) : Charted (sent + 1) received next := by
  obtain ⟨ring, storage, rfl, buffer, size, head, tail, used⟩ := charted
  simp only [rbPut, buffer] at done
  split at done
  · cases done
    refine ⟨_, storage.write ring.head data, rfl, rfl, size, ?_, tail, ?_⟩
    · rw [size]
      exact advance_mod head
    · intro i
      simp only [Storage.write, List.mem_cons, used, head]
      omega
  · simp at done

theorem get {data : Option W64} (behind : received < sent) (done : rbGet self = ((.success, data), next)) :
    Charted sent (received + 1) next := by
  obtain ⟨ring, storage, rfl, buffer, size, head, tail, used⟩ := charted
  simp only [rbGet, buffer] at done
  split at done
  · cases done
    refine ⟨_, (storage.read ring.tail).2, rfl, rfl, size, head, ?_, ?_⟩
    · rw [size]
      exact advance_mod tail
    · intro i
      simp only [Storage.read, List.mem_cons, used, tail]
      omega
  · simp at done

theorem peek {data : Option W64} (behind : received < sent) (done : rbPeek self = ((.success, data), next)) :
    Charted sent received next := by
  obtain ⟨ring, storage, rfl, buffer, size, head, tail, used⟩ := charted
  simp only [rbPeek, buffer] at done
  split at done
  · cases done
    refine ⟨_, (storage.read ring.tail).2, rfl, rfl, size, head, tail, ?_⟩
    intro i
    simp only [Storage.read, List.mem_cons, used, tail]
    omega
  · simp at done

theorem mem_accessed (i : Nat) : i ∈ accessed self ↔ i < sent ∧ i < 256 := by
  obtain ⟨ring, storage, rfl, buffer, -, -, -, used⟩ := charted
  simp [accessed, buffer, used]

end Charted

variable {k k' : Channels} {event : ChannelEvent}

def AllCharted (t : Traffic) (k : Channels) : Prop :=
  Delivered t k ∧ ∀ channel c, k.channels channel = some c →
    Charted (t.sent channel).length (t.received channel).length c.ring

theorem Delivered.behind {t : Traffic} (delivered : Delivered t k) {channel msg : Addr}
    {c : Channel} {rest : List Addr} (found : k.channels channel = some c)
    (holds : ringQueue c.ring = msg :: rest) :
    (t.received channel).length < (t.sent channel).length := by
  rw [delivered.2 channel (by simp [found]), pending_eq found, holds]
  simp

theorem allCharted_step {t : Traffic} (charted : AllCharted t k) (step : ChannelStep k event k') :
    AllCharted (t.record event) k' := by
  obtain ⟨delivered, kept⟩ := charted
  refine ⟨delivered_step delivered step, ?_⟩
  intro channel c at_
  cases delivered.1.effect step with
  | refused refusal used =>
    rw [record_refusal t refusal used]
    exact kept channel c at_
  | created memory flags name nonnull fresh =>
    simp only [newChannel] at at_
    by_cases same : channel = memory.channel
    · subst same
      simp only [Function.update_self, Option.some.injEq] at at_
      subst at_
      simpa [Traffic.record] using charted_init memory.ring memory.buffer
    · rw [Function.update_of_ne same] at at_
      simpa [Traffic.record, Function.update_of_ne same] using kept channel c at_
  | @destroyed gone next _ cleared =>
    by_cases same : channel = gone
    · simp [cleared, same] at at_
    · rw [cleared, Function.update_of_ne same] at at_
      exact kept channel c at_
  | @sent self dest msg recipient ring _ found put longer =>
    rw [withChannel_channels] at at_
    by_cases same : channel = dest
    · subst same
      simp only [Function.update_self, Option.some.injEq] at at_
      subst at_
      simpa [Traffic.record] using (kept channel recipient found).put put
    · rw [Function.update_of_ne same] at at_
      simpa [Traffic.record, Function.update_of_ne same] using kept channel c at_
  | @received self msg receiver ring found get shorter =>
    rw [withChannel_channels] at at_
    by_cases same : channel = self
    · subst same
      simp only [Function.update_self, Option.some.injEq] at at_
      subst at_
      simpa [Traffic.record] using
        (kept channel receiver found).get (delivered.behind found shorter) get
    · rw [Function.update_of_ne same] at at_
      simpa [Traffic.record, Function.update_of_ne same] using kept channel c at_
  | @peeked self msg rest receiver ring found peek before after =>
    rw [withChannel_channels] at at_
    by_cases same : channel = self
    · subst same
      simp only [Function.update_self, Option.some.injEq] at at_
      subst at_
      exact (kept channel receiver found).peek (delivered.behind found before) peek
    · rw [Function.update_of_ne same] at at_
      exact kept channel c at_

theorem allCharted_run {events : List ChannelEvent} (run : Run ChannelStep .initial events k) :
    AllCharted (traffic events) k := by
  have initial : AllCharted ⟨fun _ => [], fun _ => []⟩ .initial :=
    ⟨⟨sound_initial, by simp [Channels.initial]⟩, by simp [Channels.initial]⟩
  refine Run.recorded ?_ run initial
  intro t k event k' charted step
  exact allCharted_step charted step

/-- The ring stays inside the words allocated for it exactly as long as no more packages were
    sent to the channel than there are words. -/
theorem channel_storage_iff {events : List ChannelEvent} (run : Run ChannelStep .initial events k)
    {channel : Addr} {c : Channel} (live : k.channels channel = some c) :
    (∀ i ∈ accessed c.ring, i < channelBufferSize.toNat / 8) ↔
      ((traffic events).sent channel).length ≤ 32 := by
  have charted := (allCharted_run run).2 channel c live
  have words : channelBufferSize.toNat / 8 = 32 := rfl
  simp only [charted.mem_accessed, words]
  constructor
  · intro inside
    have last := inside 32
    omega
  · intro few i used
    omega

theorem channel_storage_iff_single :
    ∃ k c, Run ChannelStep .initial [creation, toItself 5] k ∧ k.channels 0x1000 = some c ∧
      ∀ i ∈ accessed c.ring, i < channelBufferSize.toNat / 8 := by
  have run : Run ChannelStep .initial [creation, toItself 5] _ :=
    .cons ⟨⟨by decide, rfl⟩, rfl⟩ (.cons ⟨trivial, rfl⟩ (.nil _))
  have few : ((traffic [creation, toItself 5]).sent 0x1000).length ≤ 32 := by decide
  exact ⟨_, _, run, rfl, (channel_storage_iff run rfl).mpr few⟩

theorem backlog_sent (n : Nat) :
    (traffic (creation :: List.replicate n (toItself 1))).sent 0x1000 = List.replicate n 1 ∧
      (traffic (creation :: List.replicate n (toItself 1))).received 0x1000 = [] := by
  induction n with
  | zero => exact ⟨rfl, rfl⟩
  | succ n ih =>
    obtain ⟨sent, received⟩ := ih
    have last : traffic (creation :: List.replicate (n + 1) (toItself 1)) =
        (traffic (creation :: List.replicate n (toItself 1))).record (toItself 1) := by
      rw [List.replicate_succ', ← List.cons_append, traffic, List.foldl_append]
      rfl
    rw [last]
    constructor
    · rw [List.replicate_succ', ← sent]
      rfl
    · exact received

theorem backlog_run (n : Nat) (short : n ≤ 255) :
    ∃ k c, Run ChannelStep .initial (creation :: List.replicate n (toItself 1)) k ∧
      k.channels 0x1000 = some c ∧ c.flags = channelCanReceive ||| channelCanSend := by
  induction n with
  | zero => exact ⟨_, _, .cons ⟨⟨by decide, rfl⟩, rfl⟩ (.nil _), rfl, rfl⟩
  | succ n ih =>
    obtain ⟨k, c, run, at_, flags⟩ := ih (by omega)
    obtain ⟨sound, delivered⟩ := delivered_run run
    obtain ⟨sent, received⟩ := backlog_sent n
    have held : (ringQueue c.ring).length = n := by
      have total := delivered 0x1000 (by rw [at_]; rfl)
      rw [sent, received, pending_eq at_, List.nil_append] at total
      rw [← total, List.length_replicate]
    have room : rbIsFull c.ring = false := by
      obtain ⟨ring, same, agrees⟩ := (sound.ring 0x1000 c at_).matches
      rw [same, agrees.isFull, held]
      apply decide_eq_false
      have size : channelBufferSize.toNat = 256 := rfl
      omega
    have transmits : Transmits k 0x1000 0x1000 1 :=
      ⟨⟨c, at_, by rw [flags]; decide⟩, by decide, c, at_, by rw [flags]; decide, room⟩
    obtain ⟨recipient, ring, found, -, -, -, done⟩ := sound.transmit_success transmits
    rw [at_] at found
    cases found
    rw [List.replicate_succ', ← List.cons_append]
    refine ⟨k.withChannel 0x1000 { c with ring }, { c with ring },
      run.snoc ⟨trivial, by simp only [toItself, perform, done]; rfl⟩, ?_, flags⟩
    rw [withChannel_channels, Function.update_self]

/-- The thirty-third package is written past the end of the buffer. -/
theorem channel_storage_overrun :
    ∃ events k c, Run ChannelStep .initial events k ∧ k.channels 0x1000 = some c ∧
      ∃ i ∈ accessed c.ring, ¬ i < channelBufferSize.toNat / 8 := by
  obtain ⟨k, c, run, at_, -⟩ := backlog_run 33 (by decide)
  have charted := (allCharted_run run).2 0x1000 c at_
  rw [(backlog_sent 33).1, List.length_replicate] at charted
  exact ⟨_, k, c, run, at_, 32, (charted.mem_accessed 32).mpr (by decide), by decide⟩

end Neutrino.Ipc
