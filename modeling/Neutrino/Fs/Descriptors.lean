import Neutrino.Fs.Ownership
import Neutrino.Machine.Common

namespace Neutrino.Fs

open Library

/-- `FILE_OPEN`, the only operation. -/
def fileOpen : W32 := 0#32

structure SCFileArgs where
  id : Int
  filePath : Option (List Byte)
  operation : W32

/-- `list_get_size` counts in an `int`. -/
def sysFile (fs : Initrd) (memory : HandleMemory) (task : Addr) (args : SCFileArgs) (s : HandleState) :
    Option (SyscallResult × SCFileArgs × HandleState) :=
  if args.operation > fileOpen then some (.failure, args, s)
  else match args.filePath with
    | none => some (.invalid, args, s)
    | some path =>
      let args := { args with id := -1 }
      if args.operation = fileOpen then
        (handleAcquire fs memory task path s).bind fun (result, s) =>
          if result = .success then
            (s.tasks task).bind fun owner => owner.handles.map fun list =>
              (.success, { args with id := toInt32 list.length - 1 }, s)
          else some (.failure, args, s)
      else some (.invalid, args, s)

section Search

variable {fs : Initrd} {path : List Byte} (proper : fs.Proper)
include proper

theorem findFsnode_missing (few : fs.rootNodes.length + 1 < 2 ^ 31) (missing : ¬ FileExists fs path) :
    findFsnode fs path (fs.rootNodes.length + 2) 0 = some none := by
  have rest : ∀ left k, k + left = fs.rootNodes.length → findFsnode fs path (left + 1) (k + 1) = some none := by
    intro left
    induction left with
    | zero =>
      intro k whole
      rw [findFsnode, proper.fsReaddir_file (by omega), List.getElem?_eq_none (by omega)]
      rfl
    | succ left ih =>
      intro k whole
      have here : fs.rootNodes[k]? = some (fs.rootNodes[k]) := List.getElem?_eq_getElem (by omega)
      rcases findFsnode_step proper here with ⟨ref, found⟩ | ⟨-, next⟩
      · exact absurd (findFsnode_sound proper found).1 missing
      · rw [next]
        exact ih (k + 1) (by omega)
  rw [findFsnode_dev proper]
  exact rest fs.rootNodes.length 0 (Nat.zero_add _)

end Search

section Calls

variable {fs : Initrd} {memory : HandleMemory} {task : Addr} {args : SCFileArgs} {path : List Byte} {s : HandleState}

theorem sysFile_other (valid : args.operation = fileOpen) (null : args.filePath = none) :
    sysFile fs memory task args s = some (.invalid, args, s) := by
  rw [sysFile, valid, if_neg (by decide), null]

theorem sysFile_path (valid : args.operation = fileOpen) (given : args.filePath = some path) :
    sysFile fs memory task args s = (handleAcquire fs memory task path s).bind fun (result, s) =>
      if result = .success then
        (s.tasks task).bind fun owner => owner.handles.map fun list =>
          (.success, { args with id := toInt32 list.length - 1 }, s)
      else some (.failure, { args with id := -1 }, s) := by
  simp only [sysFile, valid, given, if_pos, if_neg (show ¬ fileOpen > fileOpen by decide)]

theorem sysFile_missing (proper : fs.Proper) (few : fs.rootNodes.length + 1 < 2 ^ 31)
    (valid : args.operation = fileOpen) (given : args.filePath = some path) (missing : ¬ FileExists fs path) :
    sysFile fs memory task args s = some (.failure, { args with id := -1 }, s) := by
  have acquired : handleAcquire fs memory task path s = some (.error, s) := by
    rw [handleAcquire, handleGetOrCreateFsnode, findFsnode_missing proper few missing]
    rfl
  rw [sysFile_path valid given, acquired]
  rfl

def HandleState.opened (fs : Initrd) (memory : HandleMemory) (task : Addr) (owner : HandleTask) (list : List Addr)
    (path : List Byte) (s : HandleState) : HandleState :=
  { s with
    handles := Function.update s.handles memory.handle (some { memory.contents with
      fsnode := fileOf fs path, read := true, write := false, ownerPid := owner.pid })
    globalHandles := s.globalHandles ++ [memory.handle]
    tasks := Function.update s.tasks task (some { owner with handles := some (list ++ [memory.handle]) }) }

theorem sysFile_opened (proper : fs.Proper) (valid : args.operation = fileOpen) (given : args.filePath = some path)
    (found : FileExists fs path) (dirent : direntAddress ∉ s.globalHandles) (zero : memory.contents.ownerPid = 0#32)
    {owner : HandleTask} {list : List Addr} (here : s.tasks task = some owner) (handles : owner.handles = some list)
    (short : list.length + 1 < 2 ^ 31) :
    sysFile fs memory task args s =
      some (.success, { args with id := list.length }, s.opened fs memory task owner list path) := by
  have acquired : handleAcquire fs memory task path s = some (.success, s.opened fs memory task owner list path) := by
    rw [handleAcquire, handleGetOrCreateFsnode_exists proper found dirent]
    simp [HandleState.created, HandleState.opened, zero, here, handles]
  have size : toInt32 ((list ++ [memory.handle]).length : Nat) - 1 = list.length := by
    rw [toInt32_of_small _ (by simpa using short), List.length_append, List.length_singleton]
    omega
  rw [sysFile_path valid given, acquired]
  simp only [Option.bind_some, if_pos, HandleState.opened, Function.update_self, Option.map_some, size]

end Calls

-- The calls of one task.

/-- What a successful call returned: the number, the handle that it denoted then, and the path. -/
structure Grant where
  id : Int
  handle : Option Addr
  path : List Byte

structure Session where
  state : HandleState
  grants : List Grant

structure OpenCall where
  path : Option (List Byte)
  id : Int
  memory : HandleMemory

def OpenCall.args (call : OpenCall) : SCFileArgs := ⟨call.id, call.path, fileOpen⟩

/-- The handle that a number denotes for a task. -/
def denotes (s : HandleState) (task : Addr) (id : Int) : Option Addr :=
  (s.tasks task).bind fun owner => owner.handles.bind fun list => if 0 ≤ id then list[id.toNat]? else none

def Session.after (s : Session) (task : Addr) (call : OpenCall) (result : SyscallResult) (args : SCFileArgs)
    (state : HandleState) : Session :=
  ⟨state, if result = .success then s.grants ++ [⟨args.id, denotes state task args.id, call.path.getD []⟩]
    else s.grants⟩

/-- The allocator hands out what is not in use. -/
def Fresh (s : HandleState) (memory : HandleMemory) : Prop :=
  memory.handle ≠ direntAddress ∧ s.handles memory.handle = none

def OpenStep (fs : Initrd) (task : Addr) (s : Session) (call : OpenCall) (s' : Session) : Prop :=
  Fresh s.state call.memory ∧ ∃ result args state,
    sysFile fs call.memory task call.args s.state = some (result, args, state) ∧ s' = s.after task call result args state

/-- A call for a file that exists finds no pid in the memory of the new handle, and the number
    of handles fits into an `int`. -/
def Unclaimed (fs : Initrd) (s : Session) (call : OpenCall) : Prop :=
  ∀ path, call.path = some path → FileExists fs path →
    call.memory.contents.ownerPid = 0#32 ∧ s.grants.length + 1 < 2 ^ 31

/-- The descriptors returned so far are 0, 1, 2 and so on, and each still denotes the readable
    handle of the file it was returned for. -/
def Stable (fs : Initrd) (task : Addr) (s : Session) : Prop :=
  ∀ (k : Nat) (grant : Grant), s.grants[k]? = some grant → grant.id = k ∧ ∃ a handle node, grant.handle = some a ∧
    denotes s.state task k = some a ∧ s.state.handles a = some handle ∧ handle.read = true ∧
    fs.node handle.fsnode = some node ∧ node.name = grant.path

/-- A call that does not succeed has no effect but on its own arguments. -/
def Harmless (fs : Initrd) (task : Addr) (s : Session) (call : OpenCall) : Prop :=
  ∃ result args state, sysFile fs call.memory task call.args s.state = some (result, args, state) ∧
    (call.path ≠ none → result ≠ .success → args.id = -1 ∧ state.globalHandles = s.state.globalHandles ∧
      state.tasks task = s.state.tasks task)

section Sessions

variable {fs : Initrd} {task : Addr} {s s' : Session} {call : OpenCall}

/-- The task's list holds the handles of the grants, in their order. -/
structure Session.Inv (fs : Initrd) (task : Addr) (s : Session) : Prop where
  dirent : direntAddress ∉ s.state.globalHandles
  list : ∃ owner list, s.state.tasks task = some owner ∧ owner.handles = some list ∧ list.length = s.grants.length
  stable : Stable fs task s

theorem fileOf_node {path : List Byte} (found : FileExists fs path) :
    ∃ node, fs.node (fileOf fs path) = some node ∧ node.name = path := by
  obtain ⟨ref, first⟩ := findFile_some 0 found.2
  obtain ⟨k, node, rfl, here, named⟩ := findFile_inv first
  refine ⟨node, ?_, named⟩
  rw [fileOf, first, Nat.zero_add]
  exact here

theorem Session.Inv.opened (inv : s.Inv fs task) (fresh : Fresh s.state call.memory) {owner : HandleTask}
    {list : List Addr} (here : s.state.tasks task = some owner) (handles : owner.handles = some list)
    (count : list.length = s.grants.length) {path : List Byte} (given : call.path = some path)
    (found : FileExists fs path) :
    (s.after task call .success { call.args with id := list.length }
      (s.state.opened fs call.memory task owner list path)).Inv fs task := by
  obtain ⟨node, file, named⟩ := fileOf_node found
  have now : (s.state.opened fs call.memory task owner list path).tasks task =
      some { owner with handles := some (list ++ [call.memory.handle]) } := Function.update_self ..
  have shown : ∀ k : Nat, denotes (s.state.opened fs call.memory task owner list path) task k =
      (list ++ [call.memory.handle])[k]? := by
    intro k
    simp [denotes, now]
  refine ⟨?_, ⟨_, _, now, rfl, ?_⟩, ?_⟩
  · intro member
    rcases List.mem_append.mp member with old | new
    · exact inv.dirent old
    · exact fresh.1 (List.mem_singleton.mp new).symm
  · simp [Session.after, count]
  · intro k grant taken
    simp only [Session.after, if_pos] at taken
    rcases Nat.lt_trichotomy k s.grants.length with below | rfl | above
    · rw [List.getElem?_append_left below] at taken
      obtain ⟨number, a, handle, node, denoted, listed, contents, rest⟩ := inv.stable k grant taken
      have old : list[k]? = some a := by
        simpa [denotes, here, handles] using listed
      refine ⟨number, a, handle, node, denoted, ?_, ?_, rest⟩
      · rw [Session.after, shown, List.getElem?_append_left (by omega)]
        exact old
      · have other : a ≠ call.memory.handle := by
          rintro rfl
          rw [fresh.2] at contents
          cases contents
        exact (Function.update_of_ne other ..).trans contents
    · rw [List.getElem?_append_right (Nat.le_refl _), Nat.sub_self] at taken
      cases taken
      have last : denotes (s.state.opened fs call.memory task owner list path) task s.grants.length =
          some call.memory.handle := by
        rw [shown, ← count, List.getElem?_append_right (Nat.le_refl _), Nat.sub_self]
        rfl
      refine ⟨by rw [count], call.memory.handle, _, node, ?_, last, Function.update_self .., rfl, file, ?_⟩
      · rw [count]
        exact last
      · rw [named, given]
        rfl
    · rw [List.getElem?_eq_none (by simp; omega)] at taken
      cases taken

theorem Session.Inv.answers (inv : s.Inv fs task) (proper : fs.Proper) (few : fs.rootNodes.length + 1 < 2 ^ 31)
    (fresh : Fresh s.state call.memory) (unclaimed : Unclaimed fs s call) :
    ∃ result args state, sysFile fs call.memory task call.args s.state = some (result, args, state) ∧
      (s.after task call result args state).Inv fs task ∧
      (call.path ≠ none → result ≠ .success → args.id = -1 ∧ state = s.state) := by
  have same : ∀ result args, result ≠ .success → (s.after task call result args s.state).Inv fs task := by
    intro result args fails
    rw [Session.after, if_neg fails]
    exact inv
  cases given : call.path with
  | none =>
    exact ⟨.invalid, call.args, s.state, sysFile_other rfl given, same _ _ nofun, fun set => absurd rfl set⟩
  | some path =>
    by_cases found : FileExists fs path
    · obtain ⟨zero, short⟩ := unclaimed path given found
      obtain ⟨owner, list, here, handles, count⟩ := inv.list
      exact ⟨.success, _, _, sysFile_opened proper rfl given found inv.dirent zero here handles (by omega),
        inv.opened fresh here handles count given found, fun _ fails => absurd rfl fails⟩
    · exact ⟨.failure, _, s.state, sysFile_missing proper few rfl given found, same _ _ nofun, fun _ _ => ⟨rfl, rfl⟩⟩

theorem Session.Inv.step (inv : s.Inv fs task) (proper : fs.Proper) (few : fs.rootNodes.length + 1 < 2 ^ 31)
    (unclaimed : Unclaimed fs s call) (step : OpenStep fs task s call s') : s'.Inv fs task := by
  obtain ⟨fresh, result, args, state, done, rfl⟩ := step
  obtain ⟨result', args', state', done', kept, -⟩ := inv.answers proper few fresh unclaimed
  cases done.symm.trans done'
  exact kept

/-- A task whose list of handles was found empty is given stable descriptors, as long as the
    memory of every new handle is found unclaimed. -/
theorem descriptors_stable {mem : ByteMemory} {addr : W64} (loaded : initInitrd mem addr = some fs)
    (few : fs.rootNodes.length + 1 < 2 ^ 31) (start : HandleState) (dirent : direntAddress ∉ start.globalHandles)
    {calls : List OpenCall} (run : Run (fun s call s' => Unclaimed fs s call ∧ OpenStep fs task s call s')
      ⟨newTask task (some []) start, []⟩ calls s) :
    Stable fs task s ∧
      ∀ call, Fresh s.state call.memory → Unclaimed fs s call → Harmless fs task s call := by
  have proper := initInitrd_proper loaded
  have initial : Session.Inv fs task ⟨newTask task (some []) start, []⟩ :=
    ⟨dirent, ⟨_, [], Function.update_self .., rfl, rfl⟩, fun k grant taken => by cases taken⟩
  have inv : s.Inv fs task := by
    refine run.invariant ?_ initial
    rintro s call s' inv ⟨unclaimed, step⟩
    exact inv.step proper few unclaimed step
  refine ⟨inv.stable, fun call fresh unclaimed => ?_⟩
  obtain ⟨result, args, state, done, -, kept⟩ := inv.answers proper few fresh unclaimed
  refine ⟨result, args, state, done, fun set fails => ?_⟩
  obtain ⟨id, rfl⟩ := kept set fails
  exact ⟨id, rfl, rfl⟩

end Sessions

/-- A call for the file `a`, for which the allocator returns the memory at `handle`. -/
def openA (handle : Addr) (pid : W32) : OpenCall :=
  ⟨some [0x61], 0, ⟨handle, ⟨0, false, false, pid, .dev⟩⟩⟩

def firstTask (handles : Option (List Addr)) : Session := ⟨newTask 1 handles .initial, []⟩

theorem descriptors_stable_two :
    ∃ fs s, initInitrd (store (fun _ => 0) 0x100000 (makeInitrd (fun _ => 0) oneFile)) 0x100000 = some fs ∧
      Run (fun s call s' => Unclaimed fs s call ∧ OpenStep fs 1 s call s') (firstTask (some []))
        [openA 0x1000 0, openA 0x2000 0] s ∧
      s.grants.length = 2 ∧ Stable fs 1 s := by
  obtain ⟨fs, loaded, found, one⟩ := oneFile_mounted
  have few : fs.rootNodes.length + 1 < 2 ^ 31 := by omega
  have dirent : direntAddress ∉ (firstTask (some [])).state.globalHandles := List.not_mem_nil
  have opened := @sysFile_opened fs (openA 0x1000 0).memory 1 (openA 0x1000 0).args [0x61] _
    (initInitrd_proper loaded) rfl rfl found dirent rfl ⟨0, some []⟩ [] rfl rfl (by decide)
  have opened' := @sysFile_opened fs (openA 0x2000 0).memory 1 (openA 0x2000 0).args [0x61]
    ((firstTask (some [])).state.opened fs (openA 0x1000 0).memory 1 ⟨0, some []⟩ [] [0x61])
    (initInitrd_proper loaded) rfl rfl found (show direntAddress ∉ [0x1000#64] by decide) rfl ⟨0, some [0x1000]⟩ [0x1000] rfl rfl
    (by decide)
  have run : Run (fun s call s' => Unclaimed fs s call ∧ OpenStep fs 1 s call s') (firstTask (some []))
      [openA 0x1000 0, openA 0x2000 0] _ :=
    .cons ⟨fun _ _ _ => ⟨rfl, by decide⟩, ⟨by decide, rfl⟩, _, _, _, opened, rfl⟩
      (.cons ⟨fun _ _ _ => ⟨rfl, show 1 + 1 < 2 ^ 31 by decide⟩, ⟨by decide, rfl⟩, _, _, _, opened', rfl⟩ (.nil _))
  exact ⟨fs, _, loaded, run, rfl, (descriptors_stable loaded few .initial List.not_mem_nil run).1⟩
/-- The memory of the new handle held a pid: the call fails, and the handle stays in `global_handles`. -/
theorem failed_open_leaves_handle :
    ∃ fs, initInitrd (store (fun _ => 0) 0x100000 (makeInitrd (fun _ => 0) oneFile)) 0x100000 = some fs ∧
      Fresh (firstTask (some [])).state (openA 0x1000 7).memory ∧
      ¬ Harmless fs 1 (firstTask (some [])) (openA 0x1000 7) := by
  obtain ⟨fs, loaded, found, -⟩ := oneFile_mounted
  refine ⟨fs, loaded, ⟨by decide, rfl⟩, ?_⟩
  rintro ⟨result, args, state, done, harmless⟩
  have acquired := @handleAcquire_owned fs 1 [0x61] (openA 0x1000 7).memory (initInitrd_proper loaded) found
    (firstTask (some [])).state List.not_mem_nil (by decide)
  rw [sysFile_path rfl rfl, acquired] at done
  cases done
  exact List.cons_ne_nil _ _ (harmless nofun nofun).2.1

end Neutrino.Fs
