import Neutrino.Ipc.Lookup

namespace Neutrino.Registry

open Library Neutrino.Lists
open Ipc (Addr Byte ChannelAgentData Channels agentNameMax)

/-- The string in a name's array. -/
def stringOf (name : Nat → Byte) : List Byte := ((List.range (agentNameMax + 1)).map name).takeWhile (· != 0#8)

def Channel.view (c : Channel) : Ipc.Channel where
  flags := c.flags
  agent := ⟨c.agent.id, stringOf c.agent.name⟩
  ring := c.ring

/-- The registry as a list of entries. -/
def view (history : History) (h : Heap) : Channels where
  globalAgentId := h.globalAgentId
  agentChannelMap := history.live.map LiveChannel.entry
  channels := fun a => (h.channels a).map Channel.view

theorem stringOf_chars {string : List Byte} (proper : 0#8 ∉ string) (short : string.length ≤ agentNameMax) :
    stringOf (chars string) = string := by
  have padded : (List.range (agentNameMax + 1)).map (chars string) =
      string ++ List.replicate (agentNameMax + 1 - string.length) 0#8 := by
    apply List.ext_getElem
    · simp only [List.length_map, List.length_range, List.length_append, List.length_replicate]
      omega
    · intro i inside inside'
      simp only [List.getElem_map, List.getElem_range, chars, List.getD_eq_getElem?_getD, List.getElem_append,
        List.getElem_replicate]
      split
      · rename_i below
        rw [List.getElem?_eq_getElem below, Option.getD_some]
      · rename_i above
        rw [List.getElem?_eq_none (by omega), Option.getD_none]
        rfl
  have nonzero : ∀ b ∈ string, (b != 0#8) = true := by
    intro b member
    rw [bne_iff_ne]
    rintro rfl
    exact proper member
  have rest : List.replicate (agentNameMax + 1 - string.length) 0#8 =
      0#8 :: List.replicate (agentNameMax - string.length) 0#8 := by
    rw [Nat.succ_sub short, List.replicate_succ]
  rw [stringOf, padded, rest, List.takeWhile_append_of_pos nonzero]
  simp

theorem agentInit_view (id : W64) {name : Option (List Byte)} (proper : ∀ bytes ∈ name, 0#8 ∉ bytes) :
    (⟨id, stringOf (agentInit id name).name⟩ : Ipc.Agent) = Ipc.agentInit id name := by
  rw [agentInit_name, stringOf_chars, Ipc.agentInit]
  · cases name with
    | none => exact List.not_mem_nil
    | some bytes => exact fun member => proper bytes rfl (List.mem_of_mem_take member)
  · rw [List.length_take]
    exact Nat.min_le_left _ _

namespace Tracks

variable {history : History} {h : Heap} (tracks : Tracks history h)
include tracks

theorem new_refines {objects : Objects} {flags : W32} {name : Option (List Byte)} {next : Heap}
    (taken : Step h (.new objects flags name) next) :
    (Ipc.newChannel ⟨objects.channel, objects.words, objects.ringBefore⟩ flags name (view history h)).2 =
      view (history.record (.new objects flags name)) next := by
  rcases taken with ⟨placed, proper, result⟩
  rcases tracks.newChannel_yields placed flags name tracks.few_addresses with ⟨map, nodes, made, -⟩
  rw [result] at made
  cases made
  simp only [Ipc.newChannel, view, Heap.withChannel, History.record, List.map_append, List.map_cons, List.map_nil,
    LiveChannel.entry, Channels.mk.injEq, true_and]
  funext a
  by_cases same : a = objects.channel
  · rw [same, Function.update_self, Function.update_self, Option.map_some, ← agentInit_view _ proper]
    rfl
  · rw [Function.update_of_ne same, Function.update_of_ne same]

theorem destroy_refines {channel : Addr} {next : Heap} (taken : Step h (.destroy channel) next) :
    Ipc.destroyChannel channel (view history h) = some (view (history.record (.destroy channel)) next) := by
  rcases taken with ⟨live, result⟩
  rcases tracks.destroyChannel_yields live tracks.few_addresses with ⟨map, nodes, made, -⟩
  rw [result] at made
  cases made
  rcases Option.isSome_iff_exists.mp live with ⟨c, found⟩
  have removed : ((history.live.map LiveChannel.entry).eraseP (·.channel == channel)) =
      (history.live.eraseP (·.objects.channel == channel)).map LiveChannel.entry := List.eraseP_map ..
  simp only [Ipc.destroyChannel, Ipc.Channels.Sound.channelAgentRemove_eq, view, found, Option.map_some, removed,
    History.record, Option.some.injEq, Channels.mk.injEq, true_and]
  funext a
  by_cases same : a = channel
  · rw [same, Function.update_self, Function.update_self, Option.map_none]
  · rw [Function.update_of_ne same, Function.update_of_ne same]

theorem channelFindBy_view {live : List LiveChannel} (within : ∀ e ∈ live, e ∈ history.live)
    (names : NamesProper history h) (test : Ipc.Agent → Bool) :
    Ipc.channelFindBy (view history h) test (live.map LiveChannel.entry) =
      some (((live.find? fun e => test ⟨e.id, e.name.take agentNameMax⟩).map fun e => e.objects.channel).getD
        nullptr) := by
  induction live with
  | nil => rfl
  | cons e live ih =>
    rcases tracks.channel e (within e List.mem_cons_self) with ⟨c, found, agent, -⟩
    have proper : 0#8 ∉ e.name.take agentNameMax :=
      fun member => names e (within e List.mem_cons_self) (List.mem_of_mem_take member)
    have short : (e.name.take agentNameMax).length ≤ agentNameMax := by
      rw [List.length_take]
      exact Nat.min_le_left _ _
    have seen : (view history h).channels e.entry.agent = some c.view := by
      simp only [view, LiveChannel.entry, found, Option.map_some]
    rw [List.map_cons, Ipc.channelFindBy, seen, Option.bind_some]
    simp only [Channel.view, agent, stringOf_chars proper short]
    rw [ih fun d member => within d (List.mem_cons_of_mem _ member), List.find?_cons]
    cases test ⟨e.id, e.name.take agentNameMax⟩ <;> rfl

theorem lookups_refine (names : NamesProper history h) {fuel : Nat}
    (enough : max history.live.length agentNameMax < fuel) :
    (∀ channel, channelExists fuel channel h = some (Ipc.channelExists (view history h) channel)) ∧
    (∀ id, channelFindByAgentId fuel id h = Ipc.channelFindByAgentId (view history h) id) ∧
    ∀ name, 0#8 ∉ name →
      channelFindByAgentName fuel name h = Ipc.channelFindByAgentName (view history h) name := by
  refine ⟨fun channel => ?_, fun id => ?_, fun name proper => ?_⟩
  · rw [tracks.channelExists_eq channel (by omega)]
    congr 1
    rw [Bool.eq_iff_iff, decide_eq_true_iff]
    simp [Ipc.channelExists, view, LiveChannel.entry]
  · rw [Ipc.channelFindByAgentId]
    show _ = Ipc.channelFindBy (view history h) _ (history.live.map LiveChannel.entry)
    rw [tracks.channelFindBy_view (fun _ live => live) names]
    exact tracks.channelFindBy_eq (fun _ _ => rfl) (by omega)
  · rw [Ipc.channelFindByAgentName]
    show _ = Ipc.channelFindBy (view history h) _ (history.live.map LiveChannel.entry)
    rw [tracks.channelFindBy_view (fun _ live => live) names, tracks.channelFindByAgentName_eq proper names enough]

end Tracks

end Neutrino.Registry
