import Neutrino.Library.RingQueue
import Neutrino.Library.Runs
import Neutrino.Machine.Word

namespace Neutrino.Ipc

open Library

/-- The words behind a `uintptr_t*`, with the indices used so far. -/
structure Storage where
  words : Nat → W64
  accessed : List Nat

def Storage.read (storage : Storage) (index : W32) : W64 × Storage :=
  (storage.words index.toNat, { storage with accessed := index.toNat :: storage.accessed })

def Storage.write (storage : Storage) (index : W32) (data : W64) : Storage where
  words := Function.update storage.words index.toNat data
  accessed := index.toNat :: storage.accessed

inductive RingBufResult
  | success
  | error
  | full
  | empty
deriving DecidableEq

structure RingBuf where
  buffer : Option Storage
  head : W32
  tail : W32
  max : W32

/-- A `RingBuf*`, with what it points to. -/
abbrev RingBufHandle := Option RingBuf

def rbClear (self : RingBufHandle) : RingBufHandle :=
  self.map fun ring => { ring with head := 0, tail := 0 }

/-- The fields of `ring` are what `lmalloc` left there. -/
def rbInit (ring : RingBuf) (buf : Option Storage) (size : W32) : RingBufHandle :=
  if buf.isSome && size != 0 then rbClear (some { ring with buffer := buf, max := size })
  else none

def rbIsEmpty : RingBufHandle → Bool
  | none => false
  | some ring => ring.head == ring.tail

def rbIsFull : RingBufHandle → Bool
  | none => false
  | some ring => (ring.head + 1) % ring.max == ring.tail

def rbPut (self : RingBufHandle) (data : W64) : RingBufResult × RingBufHandle :=
  match self with
  | none => (.error, none)
  | some ring =>
    match ring.buffer with
    | none => (.error, some ring)
    | some buffer =>
      if !rbIsFull (some ring) then
        (.success, some { ring with
          buffer := some (buffer.write ring.head data), head := (ring.head + 1) % ring.max })
      else (.full, some ring)

/-- The word is what is stored through `data`, if anything is. -/
def rbGet (self : RingBufHandle) : (RingBufResult × Option W64) × RingBufHandle :=
  match self with
  | none => ((.error, none), none)
  | some ring =>
    match ring.buffer with
    | none => ((.error, none), some ring)
    | some buffer =>
      if !rbIsEmpty (some ring) then
        ((.success, some (buffer.read ring.tail).1), some { ring with
          buffer := some (buffer.read ring.tail).2, tail := (ring.tail + 1) % ring.max })
      else ((.empty, none), some ring)

def rbPeek (self : RingBufHandle) : (RingBufResult × Option W64) × RingBufHandle :=
  match self with
  | none => ((.error, none), none)
  | some ring =>
    match ring.buffer with
    | none => ((.error, none), some ring)
    | some buffer =>
      if !rbIsEmpty (some ring) then
        ((.success, some (buffer.read ring.tail).1),
          some { ring with buffer := some (buffer.read ring.tail).2 })
      else ((.empty, none), some ring)

def rbGetSize : RingBufHandle → W32
  | none => 0
  | some ring =>
    if rbIsFull (some ring) then ring.max
    else if ring.tail ≤ ring.head then ring.head - ring.tail
    else ring.max + ring.head - ring.tail

inductive RingCall
  | put (data : W64)
  | get
  | peek
  | clear
deriving DecidableEq

/-- What a caller sees: the value returned, unless the call is `void`, and the word stored for it. -/
abbrev RingAnswer := Option RingBufResult × Option W64

def ringStep (self : RingBufHandle) : RingCall → RingAnswer × RingBufHandle
  | .put data => ((some (rbPut self data).1, none), (rbPut self data).2)
  | .get => ((some (rbGet self).1.1, (rbGet self).1.2), (rbGet self).2)
  | .peek => ((some (rbPeek self).1.1, (rbPeek self).1.2), (rbPeek self).2)
  | .clear => ((none, none), rbClear self)

/-- The bounded queue the ring is meant to be. -/
def queueStep (capacity : Nat) (queue : List W64) : RingCall → RingAnswer × List W64
  | .put data =>
    if queue.length < capacity then ((some .success, none), queue ++ [data])
    else ((some .full, none), queue)
  | .get =>
    match queue with
    | [] => ((some .empty, none), [])
    | oldest :: rest => ((some .success, some oldest), rest)
  | .peek =>
    match queue with
    | [] => ((some .empty, none), [])
    | oldest :: rest => ((some .success, some oldest), oldest :: rest)
  | .clear => ((none, none), [])

/-- A ring over `storage` whose cursors stand inside it. -/
structure RingBuf.Sound (ring : RingBuf) (storage : Storage) : Prop where
  buffer : ring.buffer = some storage
  head : ring.head.toNat < ring.max.toNat
  tail : ring.tail.toNat < ring.max.toNat

def RingBuf.queue (ring : RingBuf) (storage : Storage) : List W64 :=
  RingQueue.contents storage.words ring.head.toNat ring.tail.toNat ring.max.toNat

theorem toNat_next {cursor max : W32} (inside : cursor.toNat < max.toNat) :
    (cursor + 1).toNat = cursor.toNat + 1 := by
  have bound := max.isLt
  rw [BitVec.toNat_add]
  exact Nat.mod_eq_of_lt (by simp; omega)

theorem toNat_advance {cursor max : W32} (inside : cursor.toNat < max.toNat) :
    ((cursor + 1) % max).toNat = (cursor.toNat + 1) % max.toNat := by
  rw [BitVec.toNat_umod, toNat_next inside]

namespace RingBuf.Sound

variable {ring : RingBuf} {storage : Storage} (sound : ring.Sound storage)
include sound

theorem isEmpty_iff : rbIsEmpty (some ring) = true ↔ ring.queue storage = [] := by
  rw [RingBuf.queue, RingQueue.contents_eq_nil_iff sound.head sound.tail]
  simp [rbIsEmpty, BitVec.toNat_inj]

theorem isFull_iff :
    rbIsFull (some ring) = true ↔ (ring.queue storage).length = ring.max.toNat - 1 := by
  rw [RingBuf.queue, RingQueue.contents_full_iff sound.head sound.tail, ← toNat_advance sound.head,
    BitVec.toNat_inj]
  simp [rbIsFull]

theorem length_lt : (ring.queue storage).length < ring.max.toNat := by
  rw [RingBuf.queue, RingQueue.contents_length]
  exact RingQueue.held_lt sound.head sound.tail

theorem put_full (data : W64) (full : (ring.queue storage).length = ring.max.toNat - 1) :
    rbPut (some ring) data = (.full, some ring) := by
  simp [rbPut, sound.buffer, sound.isFull_iff.mpr full]

theorem put_success (data : W64) (room : (ring.queue storage).length ≠ ring.max.toNat - 1) :
    ∃ next, rbPut (some ring) data = (.success, some next) ∧
      next.Sound (storage.write ring.head data) ∧ next.max = ring.max ∧
      next.queue (storage.write ring.head data) = ring.queue storage ++ [data] := by
  have notFull : rbIsFull (some ring) = false := by
    simpa using fun full => room (sound.isFull_iff.mp full)
  have advanced := toNat_advance sound.head
  refine ⟨{ ring with
    buffer := some (storage.write ring.head data), head := (ring.head + 1) % ring.max },
    by simp [rbPut, sound.buffer, notFull], ⟨rfl, ?_, sound.tail⟩, rfl, ?_⟩
  · have inside := sound.head
    simp only [advanced]
    exact Nat.mod_lt _ (by omega)
  · simp only [RingBuf.queue, Storage.write, advanced]
    apply RingQueue.contents_push sound.head sound.tail
    intro meets
    apply room
    rw [RingBuf.queue, RingQueue.contents_full_iff sound.head sound.tail]
    exact meets

theorem get_empty (empty : ring.queue storage = []) :
    rbGet (some ring) = ((.empty, none), some ring) := by
  simp [rbGet, sound.buffer, sound.isEmpty_iff.mpr empty]

theorem peek_empty (empty : ring.queue storage = []) :
    rbPeek (some ring) = ((.empty, none), some ring) := by
  simp [rbPeek, sound.buffer, sound.isEmpty_iff.mpr empty]

theorem queue_pop (some : ring.queue storage ≠ []) :
    ring.queue storage = storage.words ring.tail.toNat ::
      RingBuf.queue { ring with tail := (ring.tail + 1) % ring.max } storage := by
  have apart : ring.head.toNat ≠ ring.tail.toNat := by
    rwa [ne_eq, ← RingQueue.contents_eq_nil_iff sound.head sound.tail]
  simp only [RingBuf.queue, toNat_advance sound.tail]
  exact RingQueue.contents_pop sound.head sound.tail apart

theorem get_success (some : ring.queue storage ≠ []) :
    ∃ next, rbGet (.some ring) = ((.success, .some (storage.words ring.tail.toNat)), .some next) ∧
      next.Sound (storage.read ring.tail).2 ∧ next.max = ring.max ∧
      ring.queue storage =
        storage.words ring.tail.toNat :: next.queue (storage.read ring.tail).2 := by
  have notEmpty : rbIsEmpty (.some ring) = false := by
    simpa using fun empty => some (sound.isEmpty_iff.mp empty)
  refine ⟨{ ring with
    buffer := .some (storage.read ring.tail).2, tail := (ring.tail + 1) % ring.max },
    by simp [rbGet, sound.buffer, notEmpty, Storage.read], ⟨rfl, sound.head, ?_⟩, rfl,
    sound.queue_pop some⟩
  have inside := sound.tail
  simp only [toNat_advance sound.tail]
  exact Nat.mod_lt _ (by omega)

theorem peek_success (some : ring.queue storage ≠ []) :
    ∃ next, rbPeek (.some ring) = ((.success, .some (storage.words ring.tail.toNat)), .some next) ∧
      next.Sound (storage.read ring.tail).2 ∧ next.max = ring.max ∧
      next.queue (storage.read ring.tail).2 = ring.queue storage := by
  have notEmpty : rbIsEmpty (.some ring) = false := by
    simpa using fun empty => some (sound.isEmpty_iff.mp empty)
  exact ⟨{ ring with buffer := .some (storage.read ring.tail).2 },
    by simp [rbPeek, sound.buffer, notEmpty, Storage.read],
    ⟨rfl, sound.head, sound.tail⟩, rfl, rfl⟩

end RingBuf.Sound

/-- The ring behind a handle holds the queue. -/
def Holds (max : W32) (self : RingBufHandle) (queue : List W64) : Prop :=
  ∃ ring storage, self = some ring ∧ ring.Sound storage ∧ ring.max = max ∧
    ring.queue storage = queue

variable {max : W32}

theorem holds_init (ring : RingBuf) (storage : Storage) (positive : 0 < max.toNat) :
    Holds max (rbInit ring (some storage) max) [] := by
  have nonzero : max ≠ 0#32 := by
    rintro rfl
    simp at positive
  refine ⟨{ buffer := some storage, head := 0, tail := 0, max }, storage,
    by simp [rbInit, nonzero, rbClear], ⟨rfl, by simpa using positive, by simpa using positive⟩,
    rfl, ?_⟩
  exact RingQueue.contents_reset

theorem Holds.clear {self : RingBufHandle} {queue : List W64} (holds : Holds max self queue) :
    Holds max (rbClear self) [] := by
  obtain ⟨ring, storage, rfl, sound, rfl, -⟩ := holds
  have inside := sound.head
  exact ⟨{ ring with head := 0, tail := 0 }, storage, rfl,
    ⟨sound.buffer, by simp; omega, by simp; omega⟩, rfl, RingQueue.contents_reset⟩

theorem ringStep_refines {self : RingBufHandle} {queue : List W64} (holds : Holds max self queue)
    (call : RingCall) :
    (ringStep self call).1 = (queueStep (max.toNat - 1) queue call).1 ∧
      Holds max (ringStep self call).2 (queueStep (max.toNat - 1) queue call).2 := by
  cases call with
  | put data =>
    obtain ⟨ring, storage, rfl, sound, rfl, rfl⟩ := holds
    have bound := sound.length_lt
    by_cases full : (ring.queue storage).length = ring.max.toNat - 1
    · have refused : ¬ (ring.queue storage).length < ring.max.toNat - 1 := by omega
      simp only [ringStep, sound.put_full data full, queueStep, if_neg refused]
      exact ⟨trivial, ring, storage, rfl, sound, rfl, rfl⟩
    · have accepted : (ring.queue storage).length < ring.max.toNat - 1 := by omega
      obtain ⟨next, put, kept, same, longer⟩ := sound.put_success data full
      simp only [ringStep, put, queueStep, if_pos accepted]
      exact ⟨trivial, next, _, rfl, kept, same, longer⟩
  | get =>
    obtain ⟨ring, storage, rfl, sound, rfl, rfl⟩ := holds
    by_cases empty : ring.queue storage = []
    · simp only [ringStep, sound.get_empty empty, queueStep, empty]
      exact ⟨trivial, ring, storage, rfl, sound, rfl, empty⟩
    · obtain ⟨next, get, kept, same, shorter⟩ := sound.get_success empty
      simp only [ringStep, get, queueStep, shorter]
      exact ⟨trivial, next, _, rfl, kept, same, rfl⟩
  | peek =>
    obtain ⟨ring, storage, rfl, sound, rfl, rfl⟩ := holds
    by_cases empty : ring.queue storage = []
    · simp only [ringStep, sound.peek_empty empty, queueStep, empty]
      exact ⟨trivial, ring, storage, rfl, sound, rfl, empty⟩
    · obtain ⟨next, peek, kept, same, unchanged⟩ := sound.peek_success empty
      have front := sound.queue_pop empty
      simp only [ringStep, peek, queueStep, front]
      exact ⟨trivial, next, _, rfl, kept, same, unchanged.trans front⟩
  | clear => exact ⟨rfl, holds.clear⟩

/-- What the ring says of itself, while it holds the queue. -/
structure RingBuf.Matches (ring : RingBuf) (max : W32) (queue : List W64) : Prop where
  size : ring.max = max
  head : ring.head < max
  tail : ring.tail < max
  headNext : (ring.head + 1).toNat = ring.head.toNat + 1
  tailNext : (ring.tail + 1).toNat = ring.tail.toNat + 1
  isEmpty : rbIsEmpty (some ring) = queue.isEmpty
  isFull : rbIsFull (some ring) = decide (queue.length = max.toNat - 1)
  full : ∀ data, (rbPut (some ring) data).1 = .full → (rbPut (some ring) data).2 = some ring
  getEmpty : (rbGet (some ring)).1.1 = .empty → (rbGet (some ring)).2 = some ring
  peekEmpty : (rbPeek (some ring)).1.1 = .empty → (rbPeek (some ring)).2 = some ring

theorem Holds.matches {self : RingBufHandle} {queue : List W64} (holds : Holds max self queue) :
    ∃ ring, self = some ring ∧ ring.Matches max queue := by
  obtain ⟨ring, storage, rfl, sound, rfl, rfl⟩ := holds
  refine ⟨ring, rfl, ?_⟩
  constructor
  · rfl
  · exact sound.head
  · exact sound.tail
  · exact toNat_next sound.head
  · exact toNat_next sound.tail
  · rw [Bool.eq_iff_iff, sound.isEmpty_iff, List.isEmpty_iff]
  · rw [Bool.eq_iff_iff, sound.isFull_iff, decide_eq_true_iff]
  · intro data refused
    by_cases full : (ring.queue storage).length = ring.max.toNat - 1
    · rw [sound.put_full data full]
    · obtain ⟨next, put, -⟩ := sound.put_success data full
      simp [put] at refused
  · intro refused
    by_cases empty : ring.queue storage = []
    · rw [sound.get_empty empty]
    · obtain ⟨next, get, -⟩ := sound.get_success empty
      simp [get] at refused
  · intro refused
    by_cases empty : ring.queue storage = []
    · rw [sound.peek_empty empty]
    · obtain ⟨next, peek, -⟩ := sound.peek_success empty
      simp [peek] at refused

/-- Every sequence of calls on a fresh ring is answered as the queue of one element less answers
    it, and the ring it leaves agrees with the queue. -/
theorem ringbuf_refines_queue (ring : RingBuf) (storage : Storage) (max : W32)
    (positive : 1 ≤ max.toNat) (calls : List RingCall) :
    (answers ringStep (rbInit ring (some storage) max) calls).1 =
        (answers (queueStep (max.toNat - 1)) [] calls).1 ∧
      ∃ final, (answers ringStep (rbInit ring (some storage) max) calls).2 = some final ∧
        final.Matches max (answers (queueStep (max.toNat - 1)) [] calls).2 := by
  have initial : Holds max (rbInit ring (some storage) max) [] := holds_init ring storage positive
  have agree := fun self queue call (holds : Holds max self queue) => ringStep_refines holds call
  obtain ⟨same, holds⟩ := answers_eq agree initial calls
  exact ⟨same, holds.matches⟩

theorem ringbuf_refines_queue_wraps :
    (answers ringStep (rbInit ⟨none, 7, 9, 0⟩ (some ⟨fun _ => 0, []⟩) 2)
        [.put 5, .put 6, .get, .put 8, .peek, .get, .get]).1 =
      (answers (queueStep 1) [] [.put 5, .put 6, .get, .put 8, .peek, .get, .get]).1 :=
  (ringbuf_refines_queue ⟨none, 7, 9, 0⟩ ⟨fun _ => 0, []⟩ 2 (by decide) _).1

/-- What one call adds to the elements put and not yet got or cleared, by its answer. -/
def tally (count : Nat) : RingCall × RingAnswer → Nat
  | (.put _, (some .success, _)) => count + 1
  | (.get, (some .success, _)) => count - 1
  | (.clear, _) => 0
  | _ => count

def outstanding (calls : List RingCall) (replies : List RingAnswer) : Nat := (calls.zip replies).foldl tally 0

theorem tally_queueStep (capacity : Nat) (queue : List W64) (call : RingCall) :
    tally queue.length (call, (queueStep capacity queue call).1) = (queueStep capacity queue call).2.length := by
  cases call with
  | put data =>
    simp only [queueStep]
    split <;> simp [tally]
  | get => cases queue <;> simp [queueStep, tally]
  | peek => cases queue <;> simp [queueStep, tally]
  | clear => rfl

theorem foldl_tally (capacity : Nat) (queue : List W64) (calls : List RingCall) :
    (calls.zip (answers (queueStep capacity) queue calls).1).foldl tally queue.length =
      (answers (queueStep capacity) queue calls).2.length := by
  induction calls generalizing queue with
  | nil => rfl
  | cons call calls ih =>
    rw [answers, List.zip_cons_cons, List.foldl_cons, tally_queueStep]
    exact ih (queueStep capacity queue call).2

theorem Holds.size {self : RingBufHandle} {queue : List W64} (holds : Holds max self queue) :
    queue.length < max.toNat ∧
      (rbGetSize self).toNat = if queue.length = max.toNat - 1 then max.toNat else queue.length := by
  obtain ⟨ring, storage, rfl, sound, rfl, rfl⟩ := holds
  refine ⟨sound.length_lt, ?_⟩
  have headBound := sound.head
  have tailBound := sound.tail
  have wide := ring.max.isLt
  by_cases full : (ring.queue storage).length = ring.max.toNat - 1
  · rw [if_pos full, rbGetSize, if_pos (sound.isFull_iff.mpr full)]
  · have count : (ring.queue storage).length =
        if ring.tail.toNat ≤ ring.head.toNat then ring.head.toNat - ring.tail.toNat
        else ring.head.toNat + ring.max.toNat - ring.tail.toNat := by
      rw [RingBuf.queue, RingQueue.contents_length, RingQueue.held_eq headBound tailBound]
    rw [if_neg full, rbGetSize, if_neg fun isFull => full (sound.isFull_iff.mp isFull), count]
    by_cases unwrapped : ring.tail.toNat ≤ ring.head.toNat
    · rw [if_pos (BitVec.le_def.mpr unwrapped), if_pos unwrapped, BitVec.toNat_sub_of_le (BitVec.le_def.mpr unwrapped)]
    · rw [if_neg fun le => unwrapped (BitVec.le_def.mp le), if_neg unwrapped, BitVec.toNat_sub, BitVec.toNat_add]
      omega

theorem ring_size_exact_iff (ring : RingBuf) (storage : Storage) (max : W32) (positive : 1 ≤ max.toNat)
    (calls : List RingCall) :
    let run := answers ringStep (rbInit ring (some storage) max) calls
    outstanding calls run.1 ≤ max.toNat - 1 ∧
      ((rbGetSize run.2).toNat = outstanding calls run.1 ∧ (rbGetSize run.2).toNat ≤ max.toNat - 1 ↔
        outstanding calls run.1 < max.toNat - 1) := by
  intro run
  have initial : Holds max (rbInit ring (some storage) max) [] := holds_init ring storage positive
  have agree := fun self queue call (holds : Holds max self queue) => ringStep_refines holds call
  obtain ⟨same, holds⟩ := answers_eq agree initial calls
  have count : outstanding calls run.1 = (answers (queueStep (max.toNat - 1)) [] calls).2.length := by
    show (calls.zip (answers ringStep _ calls).1).foldl tally 0 = _
    rw [same]
    exact foldl_tally (max.toNat - 1) [] calls
  obtain ⟨bound, size⟩ := holds.size
  rw [count, size]
  refine ⟨by omega, ?_⟩
  split <;> omega

theorem ring_size_exact_wrapped :
    (rbGetSize (answers ringStep (rbInit ⟨none, 7, 9, 0⟩ (some ⟨fun _ => 0, []⟩) 3)
      [.put 5, .put 6, .get, .get, .put 8]).2).toNat = 1 := by
  have sizes := ring_size_exact_iff ⟨none, 7, 9, 0⟩ ⟨fun _ => 0, []⟩ 3 (by decide) [.put 5, .put 6, .get, .get, .put 8]
  exact (sizes.2.mpr (by decide)).1

/-- A ring of two cells holds one element and reports two. -/
theorem full_ring_size_wrong :
    outstanding [.put 5] (answers ringStep (rbInit ⟨none, 7, 9, 0⟩ (some ⟨fun _ => 0, []⟩) 2) [.put 5]).1 = 1 ∧
      rbGetSize (answers ringStep (rbInit ⟨none, 7, 9, 0⟩ (some ⟨fun _ => 0, []⟩) 2) [.put 5]).2 = 2 := by
  decide

end Neutrino.Ipc
