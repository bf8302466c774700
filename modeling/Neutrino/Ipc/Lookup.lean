import Neutrino.Ipc.Registry

namespace Neutrino.Registry

open Library Neutrino.Lists
open Ipc (Addr Byte ChannelAgentData agentNameMax)

section Strings

theorem strcmp_eq {s1 s2 : Nat → Byte} {a b : List Byte} {fuel i : Nat} (first : ∀ j, s1 (i + j) = chars a j)
    (second : ∀ j, s2 (i + j) = chars b j) (proper : 0#8 ∉ a) (proper' : 0#8 ∉ b) (enough : a.length < fuel) :
    strcmp s1 s2 fuel i = some (decide (a = b)) := by
  induction a generalizing b fuel i with
  | nil =>
    cases fuel with
    | zero => cases enough
    | succ fuel =>
      have left : s1 i = 0 := first 0
      cases b with
      | nil =>
        have right : s2 i = 0 := second 0
        simp [strcmp, left, right]
      | cons y b =>
        have right : s2 i = y := second 0
        simp only [List.mem_cons, not_or] at proper'
        simp [strcmp, left, right, proper'.1]
  | cons x a ih =>
    cases fuel with
    | zero => cases enough
    | succ fuel =>
      have left : s1 i = x := first 0
      simp only [List.mem_cons, not_or] at proper
      cases b with
      | nil =>
        have right : s2 i = 0 := second 0
        simp [strcmp, left, right, Ne.symm proper.1]
      | cons y b =>
        have right : s2 i = y := second 0
        simp only [List.mem_cons, not_or] at proper'
        by_cases same : x = y
        · have later : ∀ j, i + 1 + j = i + (j + 1) := by omega
          have rest : strcmp s1 s2 fuel (i + 1) = some (decide (a = b)) :=
            ih (fun j => by rw [later]; exact first (j + 1)) (fun j => by rw [later]; exact second (j + 1))
              proper.2 proper'.2 (by simpa using enough)
          simp [strcmp, left, right, same, Ne.symm proper'.1, rest]
        · simp [strcmp, left, right, same]

theorem agentInit_name (id : W64) (name : Option (List Byte)) :
    (agentInit id name).name = chars ((name.getD []).take agentNameMax) := by
  funext i
  cases name with
  | none => simp [agentInit, chars]
  | some name =>
    have copied : memcpy (chars name) (fun _ => 0) (min name.length agentNameMax) i =
        chars (name.take agentNameMax) i := by
      simp only [memcpy, chars, List.getD_eq_getElem?_getD, List.getElem?_take]
      grind
    cases name with
    | nil => simp [agentInit, chars]
    | cons b name => exact copied

end Strings

/-- What the calls so far say of a channel that is live. -/
structure LiveChannel where
  objects : Objects
  id : W64
  name : List Byte

/-- The channels created so far, and the live ones in the order of their creation. -/
structure History where
  created : Nat
  live : List LiveChannel

def History.record (history : History) : Call → History
  | .new objects _ agentName => ⟨history.created + 1,
      history.live ++ [⟨objects, BitVec.ofNat 64 history.created, agentName.getD []⟩]⟩
  | .destroy channel => ⟨history.created, history.live.eraseP (·.objects.channel == channel)⟩

def historyOf (calls : List Call) : History := calls.foldl History.record ⟨0, []⟩

namespace LiveChannel

def cell (e : LiveChannel) : W64 × W64 := (e.objects.node, e.objects.data)

def entry (e : LiveChannel) : ChannelAgentData := ⟨e.objects.channel, e.objects.channel⟩

def blocks (e : LiveChannel) : List Range :=
  [block e.objects.channel 80, block e.objects.buffer 256, block e.objects.data 16, block e.objects.node 24]

end LiveChannel

/-- The heap holds the live channels and lists them. -/
structure Tracks (history : History) (h : Heap) : Prop where
  counter : h.globalAgentId = BitVec.ofNat 64 history.created
  list : LinkedList h.nodes nullptr h.agentChannelMap (history.live.map LiveChannel.cell)
  data : ∀ e ∈ history.live, h.datas e.objects.data = some e.entry
  channel : ∀ e ∈ history.live, ∃ c, h.channels e.objects.channel = some c ∧
    c.agent = ⟨e.id, chars (e.name.take agentNameMax)⟩ ∧ c.buffer = e.objects.buffer
  only : ∀ a, (h.channels a).isSome → ∃ e ∈ history.live, e.objects.channel = a
  apart : (history.live.flatMap LiveChannel.blocks).Pairwise Range.Disjoint
  within : ∀ r ∈ history.live.flatMap LiveChannel.blocks, r.Within kernelHeap

theorem walk_cases {h : Heap} {test : ChannelAgentData → Option Bool} {accepts : LiveChannel → Bool}
    {before p : Addr} {rest : List LiveChannel} {fuel : Nat} (start : Nat)
    (segment : Segment h.nodes before p (rest.map LiveChannel.cell) nullptr)
    (proper : nullptr ∉ addresses (rest.map LiveChannel.cell))
    (data : ∀ e ∈ rest, h.datas e.objects.data = some e.entry)
    (tested : ∀ e ∈ rest, test e.entry = some (accepts e)) (enough : rest.length < fuel) :
    ((∀ e ∈ rest, accepts e = false) ∧ walk h test fuel p (BitVec.ofNat 32 start) = some none) ∨
    ∃ passed e after, rest = passed ++ e :: after ∧ (∀ d ∈ passed, accepts d = false) ∧ accepts e = true ∧
      walk h test fuel p (BitVec.ofNat 32 start) =
        some (some (e.objects.channel, BitVec.ofNat 32 (start + passed.length))) := by
  induction rest generalizing before p fuel start with
  | nil =>
    cases fuel with
    | zero => cases enough
    | succ fuel =>
      cases segment
      exact .inl ⟨nofun, rfl⟩
  | cons e rest ih =>
    cases fuel with
    | zero => cases enough
    | succ fuel =>
      have here := Segment.head_ne segment proper
      rcases segment with ⟨rfl, next, node, others⟩
      have index : BitVec.ofNat 32 start + 1 = BitVec.ofNat 32 (start + 1) := (BitVec.ofNat_add ..).symm
      have step : walk h test (fuel + 1) e.objects.node (BitVec.ofNat 32 start) =
          if accepts e then some (some (e.objects.channel, BitVec.ofNat 32 start))
          else walk h test fuel next (BitVec.ofNat 32 (start + 1)) := by
        rw [walk, if_neg here, node]
        simp only [Option.bind_eq_bind, Option.bind_some, data e List.mem_cons_self,
          tested e List.mem_cons_self, index]
        rfl
      rw [step]
      by_cases accepted : accepts e = true
      · refine .inr ⟨[], e, rest, rfl, nofun, accepted, ?_⟩
        rw [if_pos accepted]
        rfl
      · rw [if_neg accepted]
        rw [Bool.not_eq_true] at accepted
        rcases ih _ others (fun member => proper (List.mem_cons_of_mem _ member))
          (fun d member => data d (List.mem_cons_of_mem _ member))
          (fun d member => tested d (List.mem_cons_of_mem _ member)) (Nat.lt_of_succ_lt_succ enough) with
          ⟨none, result⟩ | ⟨passed, d, after, rfl, skipped, found, result⟩
        · exact .inl ⟨List.forall_mem_cons.mpr ⟨accepted, none⟩, result⟩
        · refine .inr ⟨e :: passed, d, after, rfl, List.forall_mem_cons.mpr ⟨accepted, skipped⟩, found, ?_⟩
          rw [result, List.length_cons, Nat.add_assoc, Nat.add_comm 1]

namespace Tracks

variable {history : History} {h next : Heap} (tracks : Tracks history h)
include tracks

theorem few : history.live.length < 2 ^ 31 - 1 := by
  have total := Range.sum_size_le tracks.apart tracks.within
  have each : ∀ live : List LiveChannel,
      ((live.flatMap LiveChannel.blocks).map Range.size).sum = live.length * 376 := by
    intro live
    induction live with
    | nil => rfl
    | cons e live ih =>
      rw [List.flatMap_cons, List.map_append, List.sum_append, ih, List.length_cons]
      simp only [LiveChannel.blocks, block, List.map_cons, List.map_nil, List.sum_cons, List.sum_nil]
      omega
  rw [each] at total
  have whole : kernelHeap.size = 2 ^ 39 := rfl
  omega

theorem distinct : (history.live.map fun e => e.objects.channel).Nodup := by
  rw [List.Nodup, List.pairwise_map]
  refine (List.pairwise_flatMap.mp tracks.apart).2.imp fun {d e} apart same => ?_
  have clash := apart (block d.objects.channel 80) List.mem_cons_self (block e.objects.channel 80) List.mem_cons_self
  exact clash.start_ne (show 0 < 80 by decide) (show 0 < 80 by decide) (congrArg BitVec.toNat same)

theorem nonnull {e : LiveChannel} (live : e ∈ history.live) : e.objects.channel ≠ nullptr := by
  intro zero
  have within := tracks.within (block e.objects.channel 80) (List.mem_flatMap.mpr ⟨e, live, List.mem_cons_self⟩)
  rw [zero] at within
  exact absurd within.1 (by decide)

theorem live_iff (a : Addr) : (h.channels a).isSome ↔ a ∈ history.live.map fun e => e.objects.channel := by
  rw [List.mem_map]
  refine ⟨tracks.only a, ?_⟩
  rintro ⟨e, live, rfl⟩
  rcases tracks.channel e live with ⟨c, found, -⟩
  rw [found]
  rfl

theorem walk_cases (test : ChannelAgentData → Option Bool) (accepts : LiveChannel → Bool) {fuel : Nat}
    (tested : ∀ e ∈ history.live, test e.entry = some (accepts e)) (enough : history.live.length < fuel) :
    ((∀ e ∈ history.live, accepts e = false) ∧ walk h test fuel h.agentChannelMap 0 = some none) ∨
    ∃ passed e after, history.live = passed ++ e :: after ∧ (∀ d ∈ passed, accepts d = false) ∧ accepts e = true ∧
      walk h test fuel h.agentChannelMap 0 =
        some (some (e.objects.channel, BitVec.ofNat 32 passed.length)) := by
  have cases := Registry.walk_cases 0 tracks.list.segment tracks.list.proper tracks.data tested enough
  simpa only [Nat.zero_add, BitVec.ofNat_eq_ofNat] using cases

theorem channelExists_eq {fuel : Nat} (channel : Addr) (enough : history.live.length < fuel) :
    channelExists fuel channel h = some (decide (channel ∈ history.live.map fun e => e.objects.channel)) := by
  rw [channelExists]
  rcases tracks.walk_cases (fun data => some (data.channel == channel)) (fun e => e.objects.channel == channel)
    (fun _ _ => rfl) enough with
    ⟨none, result⟩ | ⟨passed, e, after, split, -, found, result⟩
  · rw [result]
    simpa using none
  · rw [result, split]
    simp [beq_iff_eq.mp found]

theorem channelFindBy_eq {fuel : Nat} {test : Agent → Option Bool} {accepts : LiveChannel → Bool}
    (tested : ∀ e ∈ history.live, test ⟨e.id, chars (e.name.take agentNameMax)⟩ = some (accepts e))
    (enough : history.live.length < fuel) : channelFindBy fuel test h =
      some (((history.live.find? accepts).map fun e => e.objects.channel).getD nullptr) := by
  have tested' : ∀ e ∈ history.live, (agentOf h e.entry).bind test = some (accepts e) := by
    intro e live
    rcases tracks.channel e live with ⟨c, found, agent, -⟩
    simp only [agentOf, LiveChannel.entry, found, Option.map_some, Option.bind_some, agent, tested e live]
  rw [channelFindBy]
  rcases tracks.walk_cases (fun data => (agentOf h data).bind test) accepts tested' enough with
    ⟨none, result⟩ | ⟨passed, e, after, split, skipped, found, result⟩
  · have missing : history.live.find? accepts = Option.none := by simpa using none
    rw [result, missing]
    rfl
  · have first : history.live.find? accepts = some e := by
      rw [split, List.find?_append, List.find?_cons_of_pos found]
      have early : passed.find? accepts = Option.none := by simpa using skipped
      rw [early]
      rfl
    rw [result, first]
    rfl

theorem channelAgentRemove_yields {fuel : Nat} {channel : Addr} (live : (h.channels channel).isSome)
    (enough : history.live.length < fuel) : ∃ map nodes,
      channelAgentRemove fuel channel h = some (true, { h with agentChannelMap := map, nodes }) ∧
      LinkedList nodes nullptr map ((history.record (.destroy channel)).live.map LiveChannel.cell) := by
  have few := tracks.few
  rw [channelAgentRemove]
  rcases tracks.walk_cases (fun data => some (data.channel == channel)) (fun e => e.objects.channel == channel)
    (fun _ _ => rfl) enough with ⟨none, -⟩ | ⟨passed, e, after, split, skipped, found, result⟩
  · rcases tracks.only channel live with ⟨e, member, same⟩
    have other := none e member
    rw [beq_eq_false_iff_ne] at other
    exact absurd same other
  · have position : toInt32 ((BitVec.ofNat 32 passed.length).toNat : Int) = (passed.length : Int) := by
      have shorter : passed.length < history.live.length := by
        rw [split, List.length_append, List.length_cons]
        omega
      rw [BitVec.toNat_ofNat, Nat.mod_eq_of_lt (by omega)]
      exact toInt32_of_small _ (by omega)
    have rest : (history.record (.destroy channel)).live.map LiveChannel.cell =
        (history.live.map LiveChannel.cell).eraseIdx passed.length := by
      have kept : ∀ d ∈ passed, ¬ (d.objects.channel == channel) = true := by simpa using skipped
      rw [History.record, split, List.eraseP_append_right _ kept,
        List.eraseP_cons_of_pos (p := fun e : LiveChannel => e.objects.channel == channel) found, List.eraseIdx_map,
        List.eraseIdx_append_of_length_le (Nat.le_refl _), Nat.sub_self, List.eraseIdx_zero, List.tail_cons]
    have deleted := listDeleteAt_yields (s := ⟨h.nodes, []⟩) (i := passed.length) tracks.list
      (by rw [List.length_map]; omega) (by rw [List.length_map]; exact enough)
      (by rw [List.length_map, split, List.length_append, List.length_cons]; omega)
    rcases deleted with ⟨map, lists, taken, list, -⟩
    refine ⟨map, lists.cells, ?_, ?_⟩
    · simp only [result, Option.bind_eq_bind, Option.bind_some, position, taken]
    · rw [rest]
      exact list

theorem destroyChannel_yields {fuel : Nat} {channel : Addr} (live : (h.channels channel).isSome)
    (enough : history.live.length < fuel) : ∃ map nodes,
      destroyChannel fuel channel h = some { h with
        agentChannelMap := map, nodes, channels := Function.update h.channels channel none } ∧
      LinkedList nodes nullptr map ((history.record (.destroy channel)).live.map LiveChannel.cell) := by
  rcases Option.isSome_iff_exists.mp live with ⟨c, found⟩
  rcases tracks.channelAgentRemove_yields live enough with ⟨map, nodes, removed, list⟩
  refine ⟨map, nodes, ?_, list⟩
  simp only [destroyChannel, found, Option.bind_eq_bind, Option.bind_some, removed]

theorem uses {e : LiveChannel} (live : e ∈ history.live) {r : Range} (member : r ∈ e.blocks) : h.Uses r := by
  rcases tracks.channel e live with ⟨c, found, -, buffer⟩
  have listed : e.objects.node ∈ addresses (history.live.map LiveChannel.cell) :=
    List.mem_map.mpr ⟨e.cell, List.mem_map_of_mem live, rfl⟩
  rcases tracks.list.segment.allocated listed with ⟨node, held⟩
  simp only [LiveChannel.blocks, List.mem_cons, List.not_mem_nil, or_false] at member
  rcases member with rfl | rfl | rfl | rfl
  · exact .channel found
  · rw [← buffer]
    exact .buffer found
  · exact .data (tracks.data e live)
  · exact .node held

theorem destroy {channel : Addr} {map : Addr} {nodes : LinkStore W64 W64}
    (list : LinkedList nodes nullptr map ((history.record (.destroy channel)).live.map LiveChannel.cell)) :
    Tracks (history.record (.destroy channel))
      { h with agentChannelMap := map, nodes, channels := Function.update h.channels channel none } := by
  have old : ∀ {e}, e ∈ (history.record (.destroy channel)).live → e ∈ history.live := List.mem_of_mem_eraseP
  have other : ∀ {e}, e ∈ (history.record (.destroy channel)).live → e.objects.channel ≠ channel := by
    intro e live
    have remains : e.objects.channel ∈ (history.live.map fun e => e.objects.channel).erase channel := by
      rw [List.erase_eq_eraseP', List.eraseP_map]
      exact List.mem_map_of_mem live
    exact (tracks.distinct.mem_erase_iff.mp remains).1
  rcases List.pairwise_flatMap.mp tracks.apart with ⟨each, across⟩
  refine ⟨tracks.counter, list, fun e live => tracks.data e (old live), fun e live => ?_, fun a some => ?_,
    List.pairwise_flatMap.mpr ⟨fun e live => each e (old live), across.sublist List.eraseP_sublist⟩, fun r member => ?_⟩
  · simp only [Function.update_of_ne (other live)]
    exact tracks.channel e (old live)
  · by_cases same : a = channel
    · simp only [same, Function.update_self, Option.isSome_none, Bool.false_eq_true] at some
    · simp only [Function.update_of_ne same] at some
      rcases tracks.only a some with ⟨e, live, rfl⟩
      exact ⟨e, (List.mem_eraseP_of_neg (by simpa using same)).mpr live, rfl⟩
  · rcases List.mem_flatMap.mp member with ⟨e, live, inside⟩
    exact tracks.within r (List.mem_flatMap.mpr ⟨e, old live, inside⟩)

end Tracks

namespace Placed

variable {h : Heap} {objects : Objects} (placed : Placed h objects)
include placed

theorem start_ne {used r : Range} (busy : h.Uses used) (member : r ∈ objects.blocks) (size : 0 < used.size)
    (size' : 0 < r.size) : used.start ≠ r.start := (placed.unused r member used busy).start_ne size size'

theorem channel_unused : h.channels objects.channel = none := by
  have member : block objects.channel 80 ∈ objects.blocks := by simp [Objects.blocks]
  refine Option.eq_none_iff_forall_ne_some.mpr fun c found => ?_
  exact placed.start_ne (.channel found) member (show 0 < 80 by decide) (show 0 < 80 by decide) rfl

theorem data_unused : h.datas objects.data = none := by
  have member : block objects.data 16 ∈ objects.blocks := by simp [Objects.blocks]
  refine Option.eq_none_iff_forall_ne_some.mpr fun c found => ?_
  exact placed.start_ne (.data found) member (show 0 < 16 by decide) (show 0 < 16 by decide) rfl

theorem node_unused : h.nodes objects.node = none := by
  have member : block objects.node 24 ∈ objects.blocks := by simp [Objects.blocks]
  refine Option.eq_none_iff_forall_ne_some.mpr fun c found => ?_
  exact placed.start_ne (.node found) member (show 0 < 24 by decide) (show 0 < 24 by decide) rfl

theorem node_ne_null : objects.node ≠ nullptr := by
  intro zero
  have within := placed.within (block objects.node 24) (by simp [Objects.blocks])
  rw [zero] at within
  exact absurd within.1 (by decide)

theorem fresh : Fresh ⟨h.nodes, [(objects.node, objects.nodeBefore)]⟩ := by
  refine ⟨List.nodup_singleton _, fun a member => ?_⟩
  rw [List.mem_singleton.mp member]
  exact ⟨placed.node_ne_null, placed.node_unused⟩

end Placed

namespace Tracks

variable {history : History} {h : Heap} (tracks : Tracks history h)
include tracks

theorem new {objects : Objects} (placed : Placed h objects) (flags : W32) (name : Option (List Byte))
    {map : Addr} {nodes : LinkStore W64 W64}
    (list : LinkedList nodes nullptr map (history.live.map LiveChannel.cell ++ [(objects.node, objects.data)])) :
    Tracks (history.record (.new objects flags name)) (h.withChannel objects flags name map nodes) := by
  have data : ∀ e ∈ history.live, e.objects.data ≠ objects.data := by
    intro e live same
    have held := tracks.data e live
    rw [same, placed.data_unused] at held
    cases held
  have channel : ∀ e ∈ history.live, e.objects.channel ≠ objects.channel := by
    intro e live same
    rcases tracks.channel e live with ⟨c, found, -⟩
    rw [same, placed.channel_unused] at found
    cases found
  have agent := agentInit_name h.globalAgentId name
  have owned : ∀ r ∈ [block objects.channel 80, block objects.buffer 256, block objects.data 16, block objects.node 24],
      r ∈ objects.blocks := by simp [Objects.blocks]
  refine ⟨?_, ?_, fun e live => ?_, fun e live => ?_, fun a some => ?_, ?_, fun r member => ?_⟩
  · rw [History.record, Heap.withChannel, tracks.counter]
    exact (BitVec.ofNat_add ..).symm
  · rw [History.record, List.map_append]
    exact list
  · rcases List.mem_append.mp live with live | live
    · show Function.update h.datas objects.data _ e.objects.data = _
      rw [Function.update_of_ne (data e live)]
      exact tracks.data e live
    · rw [List.mem_singleton.mp live]
      exact Function.update_self ..
  · rcases List.mem_append.mp live with live | live
    · simp only [Heap.withChannel, Function.update_of_ne (channel e live)]
      exact tracks.channel e live
    · rw [List.mem_singleton.mp live]
      refine ⟨_, Function.update_self .., ?_, rfl⟩
      rw [← agent, ← tracks.counter]
      rfl
  · by_cases same : a = objects.channel
    · exact ⟨_, List.mem_append_right _ List.mem_cons_self, same.symm⟩
    · simp only [Heap.withChannel, Function.update_of_ne same] at some
      rcases tracks.only a some with ⟨e, live, rfl⟩
      exact ⟨e, List.mem_append_left _ live, rfl⟩
  · rw [History.record, List.flatMap_append, List.flatMap_singleton, List.pairwise_append]
    refine ⟨tracks.apart, placed.apart.sublist ?_, fun r member r' member' => ?_⟩
    · exact (((List.Sublist.refl _).cons _).cons_cons _).cons_cons _
    · rcases List.mem_flatMap.mp member with ⟨e, live, inside⟩
      exact placed.unused r' (owned r' member') r (tracks.uses live inside)
  · rw [History.record, List.flatMap_append, List.flatMap_singleton, List.mem_append] at member
    rcases member with member | member
    · exact tracks.within r member
    · exact placed.within r (owned r member)

theorem newChannel_yields {fuel : Nat} {objects : Objects} (placed : Placed h objects) (flags : W32)
    (name : Option (List Byte)) (enough : history.live.length < fuel) : ∃ map nodes,
      newChannel fuel objects flags name h = some (objects.channel, h.withChannel objects flags name map nodes) ∧
      LinkedList nodes nullptr map (history.live.map LiveChannel.cell ++ [(objects.node, objects.data)]) := by
  have appended := @listAppend_yields _ _ _ objects.data _ _ _ fuel tracks.list placed.fresh rfl
    (by rw [List.length_map]; exact enough)
  rcases appended with ⟨map, lists, taken, list, -⟩
  refine ⟨map, lists.cells, ?_, list⟩
  simp only [newChannel, Option.bind_eq_bind, Option.bind_some, taken]

theorem few_addresses : history.live.length < addressCount := by
  have few := tracks.few
  have count : addressCount = 2 ^ 64 := rfl
  omega

theorem step {call : Call} {next : Heap} (taken : Step h call next) : Tracks (history.record call) next := by
  cases call with
  | new objects flags name =>
    rcases taken with ⟨placed, -, result⟩
    rcases tracks.newChannel_yields placed flags name tracks.few_addresses with ⟨map, nodes, made, list⟩
    rw [result] at made
    cases made
    exact tracks.new placed flags name list
  | destroy channel =>
    rcases taken with ⟨live, result⟩
    rcases tracks.destroyChannel_yields live tracks.few_addresses with ⟨map, nodes, made, list⟩
    rw [result] at made
    cases made
    exact tracks.destroy list

end Tracks

theorem tracks_initial : Tracks ⟨0, []⟩ Heap.initial where
  counter := rfl
  list := .empty
  data := nofun
  channel := nofun
  only a some := by cases some
  apart := .nil
  within := nofun

theorem tracks_run {calls : List Call} {h : Heap} (run : Run Step Heap.initial calls h) :
    Tracks (historyOf calls) h :=
  run.recorded (fun _ _ _ _ tracks taken => tracks.step taken) tracks_initial

/-- Names are recorded as they were passed, without a zero. -/
def NamesProper (history : History) (_ : Heap) : Prop := ∀ e ∈ history.live, 0#8 ∉ e.name

theorem names_proper {calls : List Call} {h : Heap} (run : Run Step Heap.initial calls h) :
    NamesProper (historyOf calls) h := by
  have keep : ∀ history s call next, NamesProper history s → Step s call next →
      NamesProper (history.record call) next := by
    intro history s call next proper taken e live
    cases call with
    | new objects flags name =>
      rcases List.mem_append.mp live with live | live
      · exact proper e live
      · rw [List.mem_singleton.mp live]
        cases name with
        | none => exact List.not_mem_nil
        | some name => exact taken.2.1 name rfl
    | destroy channel => exact proper e (List.mem_of_mem_eraseP live)
  exact run.recorded keep nofun

/-- Ids grow from one live channel to the next, up to the counter. -/
def Numbered (history : History) : Prop :=
  (history.live.map fun e => e.id.toNat).Pairwise (· < ·) ∧ ∀ e ∈ history.live, e.id.toNat < history.created

theorem historyOf_snoc (calls : List Call) (call : Call) :
    historyOf (calls ++ [call]) = (historyOf calls).record call := List.foldl_append ..

theorem created_le (calls : List Call) : (historyOf calls).created ≤ calls.length := by
  induction calls using List.reverseRecOn with
  | nil => exact Nat.le_refl 0
  | append_singleton calls call ih =>
    rw [historyOf_snoc, List.length_append, List.length_singleton]
    cases call with
    | new objects flags name => exact Nat.succ_le_succ ih
    | destroy channel => exact Nat.le_succ_of_le ih

theorem numbered {calls : List Call} (few : calls.length < 2 ^ 64) : Numbered (historyOf calls) := by
  induction calls using List.reverseRecOn with
  | nil => exact ⟨.nil, nofun⟩
  | append_singleton calls call ih =>
    rw [List.length_append, List.length_singleton] at few
    rcases ih (by omega) with ⟨sorted, below⟩
    have bound := created_le calls
    rw [historyOf_snoc]
    cases call with
    | new objects flags name =>
      have id : (BitVec.ofNat 64 (historyOf calls).created).toNat = (historyOf calls).created := by
        rw [BitVec.toNat_ofNat, Nat.mod_eq_of_lt (by omega)]
      constructor
      · rw [History.record, List.map_append, List.pairwise_append]
        refine ⟨sorted, List.pairwise_singleton .., fun a old b new => ?_⟩
        rcases List.mem_map.mp old with ⟨e, live, rfl⟩
        rw [List.mem_singleton.mp new]
        show e.id.toNat < (BitVec.ofNat 64 (historyOf calls).created).toNat
        rw [id]
        exact below e live
      · intro e live
        rcases List.mem_append.mp live with live | live
        · exact Nat.lt_succ_of_lt (below e live)
        · rw [List.mem_singleton.mp live, id]
          exact Nat.lt_succ_self _
    | destroy channel =>
      refine ⟨sorted.sublist (List.eraseP_sublist.map _), fun e live => below e (List.mem_of_mem_eraseP live)⟩

theorem Numbered.distinct {history : History} (numbered : Numbered history) :
    (history.live.map fun e => e.id).Nodup := by
  rw [List.Nodup, List.pairwise_map]
  refine (List.pairwise_map.mp numbered.1).imp fun {d e} less same => ?_
  rw [same] at less
  exact Nat.lt_irrefl _ less

/-- The registry is the map of the live channels by their ids. -/
structure Exact (live : List LiveChannel) (h : Heap) : Prop where
  agents : ∀ e ∈ live, ((h.channels e.objects.channel).map fun c => c.agent.id) = some e.id
  distinct : (live.map fun e => e.id).Nodup
  entries : ∃ nodes, LinkedList h.nodes nullptr h.agentChannelMap nodes ∧
    nodes.map (fun node => h.datas node.2) = live.map fun e => some e.entry
  registered : ∀ channel, ∀ fuel > live.length,
    channelExists fuel channel h = some (decide (channel ∈ live.map fun e => e.objects.channel))
  found : ∀ id, ∀ fuel > live.length, channelFindByAgentId fuel id h =
    some (((live.find? (·.id == id)).map fun e => e.objects.channel).getD nullptr)

theorem Tracks.exact {history : History} {h : Heap} (tracks : Tracks history h) (numbered : Numbered history) :
    Exact history.live h where
  agents e live := by
    rcases tracks.channel e live with ⟨c, found, agent, -⟩
    rw [found, Option.map_some, agent]
  distinct := numbered.distinct
  entries := by
    refine ⟨_, tracks.list, ?_⟩
    rw [List.map_map, List.map_inj_left]
    exact fun e live => tracks.data e live
  registered channel fuel enough := tracks.channelExists_eq channel enough
  found id fuel enough := tracks.channelFindBy_eq (fun _ _ => rfl) enough

theorem step_new {history : History} {h : Heap} (tracks : Tracks history h) {objects : Objects}
    (placed : Placed h objects) (flags : W32) (name : Option (List Byte)) (proper : ∀ bytes ∈ name, 0#8 ∉ bytes) :
    ∃ next, Step h (.new objects flags name) next := by
  rcases tracks.newChannel_yields placed flags name tracks.few_addresses with ⟨map, nodes, made, -⟩
  exact ⟨_, placed, proper, made⟩

theorem registry_exact (calls : List Call) (few : calls.length < 2 ^ 64) (h : Heap)
    (run : Run Step Heap.initial calls h) :
    Exact (historyOf calls).live h ∧
    (∀ objects flags name, Placed h objects → (∀ bytes ∈ name, 0#8 ∉ bytes) →
      ∃ next, Step h (.new objects flags name) next) ∧
    ∀ e ∈ (historyOf calls).live, ∃ next, Step h (.destroy e.objects.channel) next := by
  have tracks := tracks_run run
  refine ⟨tracks.exact (numbered few), fun objects flags name placed proper => step_new tracks placed flags name proper,
    fun e live => ?_⟩
  · have exists_ := (tracks.live_iff e.objects.channel).mpr (List.mem_map_of_mem live)
    rcases tracks.destroyChannel_yields exists_ tracks.few_addresses with ⟨map, nodes, made, -⟩
    exact ⟨_, exists_, made⟩

/-- The first five blocks of the kernel heap. -/
def firstObjects : Objects where
  channel := 0xfffffe0000000000
  buffer := 0xfffffe0000000050
  words := fun _ => 0
  ring := 0xfffffe0000000150
  ringBefore := ⟨none, 0, 0, 0⟩
  data := 0xfffffe0000000168
  node := 0xfffffe0000000178
  nodeBefore := ⟨0, 0, 0⟩

theorem firstObjects_placed : Placed Heap.initial firstObjects where
  within := by
    unfold Range.Within
    decide
  apart := by
    unfold Range.Disjoint
    decide
  unused r _ used busy := by
    cases busy with
    | channel found => cases found
    | buffer found => cases found
    | ring found => cases found
    | data found => cases found
    | node found => cases found

theorem registry_exact_first : ∃ h, Run Step Heap.initial [.new firstObjects 3 none] h ∧
    Exact (historyOf [.new firstObjects 3 none]).live h := by
  rcases (registry_exact [] (by decide) Heap.initial (.nil _)).2.1 firstObjects 3 none firstObjects_placed nofun with
    ⟨h, made⟩
  have run : Run Step Heap.initial [.new firstObjects 3 none] h := .cons made (.nil h)
  exact ⟨h, run, (registry_exact _ (by decide) h run).1⟩

/-- The name begins the name that a channel was created with. -/
def Begins (name : List Byte) (e : LiveChannel) : Bool := name.isPrefixOf e.name

/-- A name of 32 bytes is taken for the first one that begins with it, and no longer name is found. -/
def Resolvable (name : List Byte) (live : List LiveChannel) : Prop :=
  (name.length = agentNameMax → ∀ e, live.find? (Begins name) = some e → e.name = name) ∧
    (agentNameMax < name.length → ∀ e ∈ live, e.name ≠ name)

/-- The oldest live channel that was created with the name, or a null pointer. -/
def oldestNamed (name : List Byte) (live : List LiveChannel) : Addr :=
  ((live.find? (·.name == name)).map fun e => e.objects.channel).getD nullptr

theorem Tracks.channelFindByAgentName_eq {history : History} {h : Heap} {fuel : Nat} {name : List Byte}
    (tracks : Tracks history h) (proper : 0#8 ∉ name) (names : NamesProper history h)
    (enough : max history.live.length agentNameMax < fuel) : channelFindByAgentName fuel name h =
      some (((history.live.find? fun e => e.name.take agentNameMax == name).map fun e => e.objects.channel).getD
        nullptr) := by
  refine tracks.channelFindBy_eq (fun e live => ?_) (by omega)
  have stored : 0#8 ∉ e.name.take agentNameMax := fun member => names e live (List.mem_of_mem_take member)
  have short : (e.name.take agentNameMax).length < fuel := by
    rw [List.length_take]
    omega
  have compared := strcmp_eq (i := 0) (fun j => by rw [Nat.zero_add]) (fun j => by rw [Nat.zero_add]) stored proper short
  rw [compared, beq_eq_decide]

section Names

variable {name : List Byte} {live : List LiveChannel} {e : LiveChannel}

theorem begins_of_eq (same : e.name = name) : Begins name e = true := by
  rw [Begins, List.isPrefixOf_iff_prefix, same]

theorem take_eq_iff_of_short (short : name.length < agentNameMax) : e.name.take agentNameMax = name ↔ e.name = name := by
  constructor
  · intro same
    have length := congrArg List.length same
    rw [List.length_take] at length
    rw [← same, List.take_of_length_le (by omega)]
  · intro same
    rw [same, List.take_of_length_le (Nat.le_of_lt short)]

theorem take_eq_iff_begins (exact : name.length = agentNameMax) : e.name.take agentNameMax = name ↔ Begins name e := by
  rw [Begins, List.isPrefixOf_iff_prefix, List.prefix_iff_eq_take, exact, eq_comm]

theorem take_ne_of_long (long : agentNameMax < name.length) : e.name.take agentNameMax ≠ name := by
  intro same
  have length := congrArg List.length same
  rw [List.length_take] at length
  omega

theorem oldestNamed_eq_null_iff (nonnull : ∀ e ∈ live, e.objects.channel ≠ nullptr) :
    oldestNamed name live = nullptr ↔ ∀ e ∈ live, e.name ≠ name := by
  have none_iff : live.find? (·.name == name) = none ↔ ∀ e ∈ live, e.name ≠ name := by simp
  rw [← none_iff, oldestNamed]
  cases found : live.find? (·.name == name) with
  | none => exact ⟨fun _ => rfl, fun _ => rfl⟩
  | some d => exact ⟨fun null => absurd null (nonnull d (List.mem_of_find?_eq_some found)), nofun⟩

variable (distinct : (live.map fun e => e.objects.channel).Nodup) (nonnull : ∀ e ∈ live, e.objects.channel ≠ nullptr)
include distinct nonnull

theorem first_begins_iff (first : live.find? (Begins name) = some e) :
    e.objects.channel = oldestNamed name live ↔ e.name = name := by
  constructor
  · intro same
    rw [oldestNamed] at same
    have live' := List.mem_of_find?_eq_some first
    cases found : live.find? (·.name == name) with
    | none =>
      rw [found] at same
      exact absurd same (nonnull e live')
    | some d =>
      rw [found] at same
      rw [List.inj_on_of_nodup_map distinct live' (List.mem_of_find?_eq_some found) same]
      simpa using List.find?_some found
  · intro named
    rcases List.find?_eq_some_iff_append.mp first with ⟨-, before, after, rfl, skipped⟩
    have earlier : before.find? (·.name == name) = none := by
      refine List.find?_eq_none.mpr fun d member same => ?_
      have other := skipped d member
      rw [begins_of_eq (beq_iff_eq.mp same)] at other
      cases other
    rw [oldestNamed, List.find?_append, earlier, List.find?_cons_of_pos (by simpa using named)]
    rfl

theorem found_named_iff :
    ((live.find? fun e => e.name.take agentNameMax == name).map fun e => e.objects.channel).getD nullptr =
      oldestNamed name live ↔ Resolvable name live := by
  rcases Nat.lt_trichotomy name.length agentNameMax with short | exact | long
  · have same : (fun e : LiveChannel => e.name.take agentNameMax == name) = (·.name == name) := by
      funext e
      rw [Bool.eq_iff_iff, beq_iff_eq, beq_iff_eq, take_eq_iff_of_short short]
    rw [same]
    exact ⟨fun _ => ⟨fun length => by omega, fun length => by omega⟩, fun _ => rfl⟩
  · have same : (fun e : LiveChannel => e.name.take agentNameMax == name) = Begins name := by
      funext e
      rw [Bool.eq_iff_iff, beq_iff_eq, take_eq_iff_begins exact]
    have resolvable : Resolvable name live ↔ ∀ e, live.find? (Begins name) = some e → e.name = name :=
      ⟨fun holds => holds.1 exact, fun holds => ⟨fun _ => holds, fun length => by omega⟩⟩
    rw [same, resolvable]
    cases first : live.find? (Begins name) with
    | none =>
      refine ⟨nofun, fun _ => ((oldestNamed_eq_null_iff nonnull).mpr fun e member same => ?_).symm⟩
      exact List.find?_eq_none.mp first e member (begins_of_eq same)
    | some e =>
      rw [Option.map_some, Option.getD_some, first_begins_iff distinct nonnull first]
      exact ⟨fun named d found => by cases found; exact named, fun all => all e rfl⟩
  · have missing : (live.find? fun e => e.name.take agentNameMax == name) = none :=
      List.find?_eq_none.mpr fun e _ same => take_ne_of_long long (beq_iff_eq.mp same)
    rw [missing, Option.map_none, Option.getD_none, eq_comm, oldestNamed_eq_null_iff nonnull]
    exact ⟨fun none => ⟨fun length => by omega, fun _ => none⟩, fun holds => holds.2 long⟩

end Names

/-- Looking a name up gives the right channel exactly if the name is resolvable. -/
theorem names_resolve_iff (calls : List Call) (h : Heap) (run : Run Step Heap.initial calls h) (name : List Byte)
    (proper : 0#8 ∉ name) :
    (∀ fuel > max (historyOf calls).live.length agentNameMax,
      channelFindByAgentName fuel name h = some (oldestNamed name (historyOf calls).live)) ↔
    Resolvable name (historyOf calls).live := by
  have tracks := tracks_run run
  rw [← found_named_iff tracks.distinct fun e live => tracks.nonnull live]
  constructor
  · intro all
    have result := all _ (Nat.lt_succ_self _)
    rw [tracks.channelFindByAgentName_eq proper (names_proper run) (Nat.lt_succ_self _)] at result
    exact Option.some.inj result
  · intro same fuel enough
    rw [tracks.channelFindByAgentName_eq proper (names_proper run) enough, same]

theorem names_resolve_single : ∃ h, Run Step Heap.initial [.new firstObjects 3 (some [0x61])] h ∧
    ∀ fuel > 32, channelFindByAgentName fuel [0x61] h = some firstObjects.channel := by
  rcases step_new tracks_initial firstObjects_placed 3 (some [0x61]) (by decide) with ⟨h, made⟩
  have run : Run Step Heap.initial [.new firstObjects 3 (some [0x61])] h := .cons made (.nil h)
  refine ⟨h, run, (names_resolve_iff _ h run [0x61] (by decide)).mpr ⟨?_, ?_⟩⟩
  · exact fun long => absurd long (by decide)
  · exact fun long => absurd long (by decide)

def longName : List Byte := List.replicate 33 0x61

/-- A task of that name cannot be addressed by it. -/
theorem long_name_lost : ∃ h, Run Step Heap.initial [.new firstObjects 3 (some longName)] h ∧
    oldestNamed longName (historyOf [.new firstObjects 3 (some longName)]).live = firstObjects.channel ∧
    ∀ fuel > 32, channelFindByAgentName fuel longName h = some nullptr := by
  have proper : 0#8 ∉ longName := by decide
  rcases step_new tracks_initial firstObjects_placed 3 (some longName) (by decide) with ⟨h, made⟩
  have run : Run Step Heap.initial [.new firstObjects 3 (some longName)] h := .cons made (.nil h)
  refine ⟨h, run, by decide, fun fuel enough => ?_⟩
  exact (tracks_run run).channelFindByAgentName_eq proper (names_proper run) enough

end Neutrino.Registry
