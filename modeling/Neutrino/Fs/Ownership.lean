import Mathlib.Data.List.Nodup
import Neutrino.Fs.Handle
import Neutrino.Fs.RoundTrip

namespace Neutrino.Fs

open Library

def FileExists (fs : Initrd) (path : List Byte) : Prop :=
  path ≠ devName ∧ ∃ node ∈ fs.rootNodes, node.name = path

/-- The file that a path names: the first of that name. -/
def fileOf (fs : Initrd) (path : List Byte) : NodeRef :=
  (findFile path 0 fs.rootNodes).getD .dev

section Search

variable {fs : Initrd} {path : List Byte} (proper : fs.Proper)
include proper

theorem fsFinddir_file {name : List Byte} {ref : NodeRef} {node : FsNode}
    (found : fsFinddir fs .root name = some ref) (at_ : fs.node ref = some node)
    (file : isFile node = true) : node.name = name ∧ FileExists fs name ∧ ref = fileOf fs name := by
  rw [proper.fsFinddir_root] at found
  by_cases device : name = devName
  · rw [if_pos device] at found
    cases found
    rw [Initrd.node, proper.dev] at at_
    cases at_
    simp [isFile, directoryNode, fsDirectory, fsFile] at file
  · rw [if_neg device] at found
    obtain ⟨k, _, rfl, at', named⟩ := findFile_inv found
    rw [Initrd.node, Nat.zero_add, at'] at at_
    cases at_
    exact ⟨named, ⟨device, node, List.mem_of_getElem? at', named⟩, by rw [fileOf, found]; rfl⟩

theorem findFsnode_sound {fuel i : Nat} {ref : NodeRef}
    (found : findFsnode fs path fuel i = some (some ref)) :
    FileExists fs path ∧ ref = fileOf fs path := by
  induction fuel generalizing i with
  | zero => cases found
  | succ fuel ih =>
    rw [findFsnode] at found
    split at found
    · cases found
    · rename_i node _
      obtain ⟨ref', named, found⟩ := Option.bind_eq_some_iff.mp found
      obtain ⟨fsnode, at_, found⟩ := Option.bind_eq_some_iff.mp found
      split at found
      · rename_i match_
        cases found
        rw [Bool.and_eq_true, beq_iff_eq] at match_
        obtain ⟨same, exists_, file⟩ := fsFinddir_file proper named at_ match_.1
        rw [match_.2] at same
        subst same
        exact ⟨exists_, file⟩
      · exact ih found

theorem findFsnode_dev {fuel : Nat} : findFsnode fs path (fuel + 1) 0 = findFsnode fs path fuel 1 := by
  rw [findFsnode, proper.fsReaddir_dev]
  simp only [proper.fsFinddir_root, if_true, Option.bind_some, Initrd.node, proper.dev]
  rfl

theorem findFsnode_step {k fuel : Nat} {node : FsNode} (at_ : fs.rootNodes[k]? = some node) :
    (∃ ref, findFsnode fs path (fuel + 1) (k + 1) = some (some ref)) ∨
      (path ≠ devName → node.name ≠ path) ∧
        findFsnode fs path (fuel + 1) (k + 1) = findFsnode fs path fuel (k + 2) := by
  rw [findFsnode, proper.fsReaddir_file (proper.lt_of_at at_), at_]
  simp only [Option.map_some, proper.fsFinddir_root]
  by_cases device : node.name = devName
  · refine .inr ⟨fun other same => other (same ▸ device), ?_⟩
    simp only [if_pos device, Option.bind_some, Initrd.node, proper.dev]
    rfl
  · obtain ⟨_, found⟩ := findFile_some 0 ⟨node, List.mem_of_getElem? at_, rfl⟩
    obtain ⟨j, file, rfl, fileAt, named⟩ := findFile_inv found
    have isFile_ := proper.files file (List.mem_of_getElem? fileAt)
    rw [Nat.zero_add] at found
    simp only [if_neg device, found, Option.bind_some, Initrd.node, fileAt, isFile_, named,
      Bool.true_and, beq_iff_eq]
    by_cases same : node.name = path
    · exact .inl ⟨.file j, by rw [if_pos same]⟩
    · exact .inr ⟨fun _ => same, by rw [if_neg same]⟩

theorem findFsnode_complete (left : Nat) {k extra : Nat} {node : FsNode} (other : path ≠ devName)
    (at_ : fs.rootNodes[k + left]? = some node) (named : node.name = path) :
    ∃ ref, findFsnode fs path (left + 1 + extra) (k + 1) = some (some ref) := by
  induction left generalizing k with
  | zero =>
    have order : 0 + 1 + extra = extra + 1 := by omega
    rw [order]
    rcases findFsnode_step proper at_ with found | ⟨differs, -⟩
    · exact found
    · exact absurd named (differs other)
  | succ left ih =>
    have bound := (List.getElem?_eq_some_iff.mp at_).1
    have here : fs.rootNodes[k]? = some (fs.rootNodes[k]) := List.getElem?_eq_getElem (by omega)
    have order : left + 1 + 1 + extra = left + 1 + extra + 1 := by omega
    have row : k + (left + 1) = k + 1 + left := by omega
    rw [row] at at_
    rw [order]
    rcases findFsnode_step proper here with found | ⟨-, next⟩
    · exact found
    · rw [next]
      exact ih at_

theorem findFsnode_exists (exists_ : FileExists fs path) :
    findFsnode fs path (fs.rootNodes.length + 2) 0 = some (some (fileOf fs path)) := by
  obtain ⟨other, node, member, named⟩ := exists_
  obtain ⟨m, at_⟩ := List.mem_iff_getElem?.mp member
  have bound := (List.getElem?_eq_some_iff.mp at_).1
  have fuel : fs.rootNodes.length + 1 = m + 1 + (fs.rootNodes.length - m) := by omega
  -- the entry of the device directory comes first
  rw [findFsnode_dev proper, fuel]
  obtain ⟨ref, found⟩ := @findFsnode_complete fs path proper m 0 (fs.rootNodes.length - m) node
    other (by rwa [Nat.zero_add]) named
  rw [found, (findFsnode_sound proper found).2]

end Search

/-- A task that opened a file and neither released the handle nor ended. -/
structure Ownership where
  task : Addr
  handle : Addr
  file : NodeRef

structure Files where
  state : HandleState
  owners : List Ownership

def Files.initial : Files := ⟨.initial, []⟩

inductive FileCall
  | newTask (task : Addr) (handles : Option (List Addr))
  | destroyTask (task : Addr)
  | acquire (task : Addr) (path : List Byte) (memory : HandleMemory)
  | release (task handle : Addr)

def performFile (fs : Initrd) (s : Files) : FileCall → Option (Option HandleResult × Files)
  | .newTask task handles => some (none, { s with state := newTask task handles s.state })
  | .destroyTask task =>
    some (none, ⟨destroyTask task s.state, s.owners.filter (·.task != task)⟩)
  | .acquire task path memory =>
    (handleAcquire fs memory task path s.state).map fun (result, state) =>
      (some result, ⟨state, if result = .success then
        s.owners ++ [⟨task, memory.handle, fileOf fs path⟩] else s.owners⟩)
  | .release task handle =>
    some (none, ⟨handleRelease task handle s.state, s.owners.filter (·.handle != handle)⟩)

/-- Tasks exist when they act, and the allocator hands out what is not in use. -/
def FileAllowed (s : Files) : FileCall → Prop
  | .newTask task _ => s.state.tasks task = none
  | .destroyTask task => (s.state.tasks task).isSome
  | .acquire task _ memory => (s.state.tasks task).isSome ∧ memory.handle ≠ direntAddress ∧
    s.state.handles memory.handle = none
  | .release _ _ => True

def FileStep (fs : Initrd) (s : Files) (call : FileCall) (s' : Files) : Prop :=
  FileAllowed s call ∧ ∃ answer, performFile fs s call = some (answer, s')

def Unowned (s : Files) (file : NodeRef) : Prop := ∀ owner ∈ s.owners, owner.file ≠ file

/-- What the allocator leaves in new memory agrees with what the fields are taken to say: a new
    task has no handles, and the pid in a new handle is zero just when nobody owns the file. -/
def Faithful (fs : Initrd) (s : Files) : FileCall → Prop
  | .newTask _ handles => handles.isSome
  | .acquire _ path memory =>
    FileExists fs path → (memory.contents.ownerPid = 0#32 ↔ Unowned s (fileOf fs path))
  | .destroyTask _ | .release _ _ => True

variable {fs : Initrd} {s s' : Files}

/-- No handle is the directory entry, every task can take handles, and no file has two owners. -/
structure Files.Sound (s : Files) : Prop where
  dirent : direntAddress ∉ s.state.globalHandles
  lists : ∀ task owner, s.state.tasks task = some owner → owner.handles.isSome
  once : (s.owners.map (·.file)).Nodup

theorem sound_files_initial : Files.initial.Sound := by
  constructor <;> simp [Files.initial, HandleState.initial]

section Acquire

variable {task : Addr} {path : List Byte} {memory : HandleMemory}

def HandleState.created (fs : Initrd) (memory : HandleMemory) (path : List Byte)
    (s : HandleState) : HandleState :=
  { s with
    handles := Function.update s.handles memory.handle
      (some { memory.contents with fsnode := fileOf fs path, read := true, write := false })
    globalHandles := s.globalHandles ++ [memory.handle] }

theorem handleGetOrCreateFsnode_exists (proper : fs.Proper) (exists_ : FileExists fs path)
    {state : HandleState} (dirent : direntAddress ∉ state.globalHandles) :
    handleGetOrCreateFsnode fs memory path state =
      some (some memory.handle, state.created fs memory path) := by
  simp [handleGetOrCreateFsnode, findFsnode_exists proper exists_, dirent, HandleState.created]

theorem handleAcquire_missing (proper : fs.Proper) (missing : ¬ FileExists fs path)
    {state state' : HandleState} {result : HandleResult}
    (done : handleAcquire fs memory task path state = some (result, state')) :
    result = .error ∧ state' = state := by
  obtain ⟨⟨handle, next⟩, got, rest⟩ := Option.bind_eq_some_iff.mp done
  obtain ⟨found, searched, made⟩ := Option.map_eq_some_iff.mp got
  cases found with
  | none =>
    cases made
    cases rest
    exact ⟨rfl, rfl⟩
  | some ref => exact absurd (findFsnode_sound proper searched).1 missing

theorem handleAcquire_owned (proper : fs.Proper) (exists_ : FileExists fs path)
    {state : HandleState} (dirent : direntAddress ∉ state.globalHandles)
    (garbage : memory.contents.ownerPid ≠ 0#32) :
    handleAcquire fs memory task path state =
      some (.alreadyOwned, state.created fs memory path) := by
  rw [handleAcquire, handleGetOrCreateFsnode_exists proper exists_ dirent]
  simp [HandleState.created, garbage]

theorem handleAcquire_free (proper : fs.Proper) (exists_ : FileExists fs path)
    {state : HandleState} (dirent : direntAddress ∉ state.globalHandles)
    (zero : memory.contents.ownerPid = 0#32) {owner : HandleTask} {list : List Addr}
    (at_ : state.tasks task = some owner) (handles : owner.handles = some list) :
    ∃ state', handleAcquire fs memory task path state = some (.success, state') ∧
      state'.globalHandles = state.globalHandles ++ [memory.handle] ∧
      state'.tasks = Function.update state.tasks task
        (some { owner with handles := some (list ++ [memory.handle]) }) ∧
      ∀ other, other ≠ memory.handle → state'.handles other = state.handles other := by
  rw [handleAcquire, handleGetOrCreateFsnode_exists proper exists_ dirent]
  simp only [HandleState.created, zero, at_, handles, Option.bind_some, Function.update_self,
    Option.map_some, Function.update_idem]
  refine ⟨_, rfl, rfl, rfl, ?_⟩
  intro other apart
  simp [Function.update_of_ne apart]

end Acquire

theorem Files.Sound.acquire_iff (sound : s.Sound) (proper : fs.Proper) {task : Addr}
    {path : List Byte} {memory : HandleMemory} (allowed : FileAllowed s (.acquire task path memory))
    (exists_ : FileExists fs path) :
    (∃ s', performFile fs s (.acquire task path memory) = some (some .success, s')) ↔
      memory.contents.ownerPid = 0#32 := by
  by_cases zero : memory.contents.ownerPid = 0#32
  · obtain ⟨owner, at_⟩ := Option.isSome_iff_exists.mp allowed.1
    obtain ⟨list, handles⟩ := Option.isSome_iff_exists.mp (sound.lists task owner at_)
    obtain ⟨state, done, -⟩ := handleAcquire_free proper exists_ sound.dirent zero at_ handles
    exact iff_of_true ⟨_, by rw [performFile, done]; rfl⟩ zero
  · refine iff_of_false ?_ zero
    rintro ⟨s', done⟩
    rw [performFile, handleAcquire_owned proper exists_ sound.dirent zero] at done
    simp at done

theorem Files.Sound.release (sound : s.Sound) (keep : Ownership → Bool) (state : HandleState)
    (dirent : direntAddress ∉ state.globalHandles)
    (lists : ∀ task owner, state.tasks task = some owner → owner.handles.isSome) :
    Files.Sound ⟨state, s.owners.filter keep⟩ where
  dirent := dirent
  lists := lists
  once := sound.once.sublist (List.filter_sublist.map _)

theorem handleRelease_globalHandles {task handle : Addr} (state : HandleState)
    {other : Addr} (absent : other ∉ state.globalHandles) :
    other ∉ (handleRelease task handle state).globalHandles ∧
      (handleRelease task handle state).tasks = state.tasks := by
  unfold handleRelease
  split
  · exact ⟨absent, rfl⟩
  · split
    · exact ⟨absent, rfl⟩
    · exact ⟨fun member => absent (List.mem_of_mem_eraseIdx member), rfl⟩

theorem sound_files_step (proper : fs.Proper) (sound : s.Sound) {call : FileCall}
    (step : Faithful fs s call ∧ FileStep fs s call s') : s'.Sound := by
  obtain ⟨faithful, allowed, answer, done⟩ := step
  cases call with
  | newTask task handles =>
    cases done
    refine ⟨sound.dirent, ?_, sound.once⟩
    intro other owner at_
    simp only [newTask] at at_
    by_cases same : other = task
    · subst same
      simp only [Function.update_self, Option.some.injEq] at at_
      subst at_
      exact faithful
    · rw [Function.update_of_ne same] at at_
      exact sound.lists other owner at_
  | destroyTask task =>
    cases done
    refine sound.release _ _ sound.dirent ?_
    intro other owner at_
    simp only [destroyTask] at at_
    by_cases same : other = task
    · simp [same] at at_
    · rw [Function.update_of_ne same] at at_
      exact sound.lists other owner at_
  | release task handle =>
    cases done
    obtain ⟨absent, tasks⟩ := handleRelease_globalHandles s.state sound.dirent
    refine sound.release _ _ absent ?_
    rw [tasks]
    exact sound.lists
  | acquire task path memory =>
    obtain ⟨live, apart, -⟩ := allowed
    have absent : direntAddress ∉ s.state.globalHandles ++ [memory.handle] := by
      simp [sound.dirent, apart.symm]
    obtain ⟨⟨result, state⟩, acquired, same⟩ := Option.map_eq_some_iff.mp done
    cases same
    by_cases exists_ : FileExists fs path
    · by_cases zero : memory.contents.ownerPid = 0#32
      · obtain ⟨owner, at_⟩ := Option.isSome_iff_exists.mp live
        obtain ⟨list, handles⟩ := Option.isSome_iff_exists.mp (sound.lists task owner at_)
        obtain ⟨state', acquired', global, tasks, -⟩ :=
          handleAcquire_free proper exists_ sound.dirent zero at_ handles
        rw [acquired] at acquired'
        cases acquired'
        have unowned : Unowned s (fileOf fs path) := (faithful exists_).mp zero
        refine ⟨global ▸ absent, ?_, ?_⟩
        · intro other owner' at'
          rw [tasks] at at'
          by_cases same : other = task
          · subst same
            simp only [Function.update_self, Option.some.injEq] at at'
            subst at'
            rfl
          · rw [Function.update_of_ne same] at at'
            exact sound.lists other owner' at'
        · have new : fileOf fs path ∉ s.owners.map (·.file) := by
            intro member
            obtain ⟨owner', owns, same⟩ := List.mem_map.mp member
            exact unowned owner' owns same
          simpa [List.nodup_append, sound.once] using new
      · rw [handleAcquire_owned proper exists_ sound.dirent zero] at acquired
        cases acquired
        exact ⟨absent, sound.lists, sound.once⟩
    · obtain ⟨rfl, rfl⟩ := handleAcquire_missing proper exists_ acquired
      exact ⟨sound.dirent, sound.lists, sound.once⟩

theorem Files.Sound.unowned_without (sound : s.Sound) {owner : Ownership} (owns : owner ∈ s.owners)
    {keep : Ownership → Bool} (gone : keep owner = false) (state : HandleState) :
    Unowned ⟨state, s.owners.filter keep⟩ owner.file := by
  intro other member same
  obtain ⟨known, kept⟩ := List.mem_filter.mp member
  have equal : other = owner := List.inj_on_of_nodup_map sound.once known owns same
  rw [equal, gone] at kept
  cases kept

/-- As long as new memory agrees with the ownership there is, no file has two owners; an open
    succeeds exactly when the file has no owner if the new handle agrees, and only then; and a
    file released, or whose owner ended, has no owner. -/
theorem files_exclusive_iff {mem : ByteMemory} {addr : W64} (loaded : initInitrd mem addr = some fs)
    {calls : List FileCall}
    (run : Run (fun s call s' => Faithful fs s call ∧ FileStep fs s call s') .initial calls s) :
    (∀ owner ∈ s.owners, ∀ other ∈ s.owners, owner.file = other.file → owner.task = other.task) ∧
    (∀ task path memory, FileAllowed s (.acquire task path memory) → FileExists fs path →
      (((∃ s', performFile fs s (.acquire task path memory) = some (some .success, s')) ↔
          Unowned s (fileOf fs path)) ↔
        Faithful fs s (.acquire task path memory))) ∧
    (∀ owner ∈ s.owners, ∀ task s', FileStep fs s (.release task owner.handle) s' →
      Unowned s' owner.file) ∧
    (∀ owner ∈ s.owners, ∀ s', FileStep fs s (.destroyTask owner.task) s' →
      Unowned s' owner.file) := by
  have proper := initInitrd_proper loaded
  have sound : s.Sound :=
    run.invariant (fun _ _ _ sound step => sound_files_step proper sound step) sound_files_initial
  refine ⟨?_, ?_, ?_, ?_⟩
  · intro owner owns other owns' same
    rw [List.inj_on_of_nodup_map sound.once owns owns' same]
  · intro task path memory allowed exists_
    rw [sound.acquire_iff proper allowed exists_]
    exact ⟨fun agrees _ => agrees, fun faithful => faithful exists_⟩
  · rintro owner owns task s' ⟨-, answer, done⟩
    cases done
    exact sound.unowned_without owns (by simp) _
  · rintro owner owns s' ⟨-, answer, done⟩
    cases done
    exact sound.unowned_without owns (by simp) _

theorem oneFile_mounted :
    ∃ fs, initInitrd (store (fun _ => 0) 0x100000 (makeInitrd (fun _ => 0) oneFile)) 0x100000 = some fs ∧
      FileExists fs [0x61] ∧ fs.rootNodes.length = 1 := by
  have fits : (makeInitrd (fun _ => 0) oneFile).length ≤ 2 ^ 64 := by
    have total := oneFile_packable.length_makeInitrd fun _ => 0
    have bound := oneFile_packable.size
    omega
  obtain ⟨fs, loaded, here⟩ := mounted oneFile_packable (load_store_self fits)
  refine ⟨fs, loaded, ⟨by decide, fileNode 0 ⟨[0x61], [1, 2, 3]⟩, ?_, rfl⟩, ?_⟩
  · rw [here.nodes]
    exact List.mem_cons_self
  · rw [here.nodes]
    rfl

def zeroed (handle : Addr) : HandleMemory := ⟨handle, ⟨0, false, false, 0, .dev⟩⟩

def twoTasks : Files := ⟨newTask 2 (some []) (newTask 1 (some []) .initial), []⟩

theorem twoTasks_run :
    Run (FileStep fs) .initial [.newTask 1 (some []), .newTask 2 (some [])] twoTasks :=
  .cons ⟨rfl, _, rfl⟩ (.cons ⟨rfl, _, rfl⟩ (.nil _))

/-- The first of two tasks opens the file `a`. -/
theorem first_opens {fs : Initrd} (proper : fs.Proper) (exists_ : FileExists fs [0x61]) :
    ∃ state, FileStep fs twoTasks (.acquire 1 [0x61] (zeroed 0x1000)) ⟨state, [⟨1, 0x1000, fileOf fs [0x61]⟩]⟩ ∧
      direntAddress ∉ state.globalHandles ∧ state.tasks 2 = some ⟨1, some []⟩ ∧ state.handles 0x2000 = none := by
  have first : direntAddress ∉ twoTasks.state.globalHandles := by
    simp [twoTasks, newTask, HandleState.initial]
  obtain ⟨state, done, global, tasks, kept⟩ := @handleAcquire_free fs 1 [0x61] (zeroed 0x1000)
    proper exists_ twoTasks.state first rfl ⟨0, some []⟩ [] rfl rfl
  refine ⟨state, ⟨⟨rfl, by decide, rfl⟩, some .success, by rw [performFile, done]; rfl⟩, ?_, ?_, kept 0x2000 (by decide)⟩
  · rw [global]
    decide
  · rw [tasks]
    rfl

theorem files_exclusive_iff_two :
    ∃ fs s, initInitrd (store (fun _ => 0) 0x100000 (makeInitrd (fun _ => 0) oneFile)) 0x100000 =
        some fs ∧
      Run (fun s call s' => Faithful fs s call ∧ FileStep fs s call s') .initial
        [.newTask 1 (some []), .newTask 2 (some []), .acquire 1 [0x61] (zeroed 0x1000)] s ∧
      s.owners.length = 1 ∧
      ∀ path memory, FileAllowed s (.acquire 2 path memory) → FileExists fs path →
        (((∃ s', performFile fs s (.acquire 2 path memory) = some (some .success, s')) ↔
          Unowned s (fileOf fs path)) ↔ Faithful fs s (.acquire 2 path memory)) := by
  obtain ⟨fs, loaded, exists_, -⟩ := oneFile_mounted
  obtain ⟨state, opens, -⟩ := first_opens (initInitrd_proper loaded) exists_
  have agrees : Faithful fs twoTasks (.acquire 1 [0x61] (zeroed 0x1000)) := by
    intro _
    exact iff_of_true rfl fun owner member => absurd member List.not_mem_nil
  have run : Run (fun s call s' => Faithful fs s call ∧ FileStep fs s call s') .initial
      [.newTask 1 (some []), .newTask 2 (some []), .acquire 1 [0x61] (zeroed 0x1000)]
      ⟨state, [⟨1, 0x1000, fileOf fs [0x61]⟩]⟩ :=
    .cons ⟨rfl, rfl, _, rfl⟩ (.cons ⟨rfl, rfl, _, rfl⟩ (.cons ⟨agrees, opens⟩ (.nil _)))
  exact ⟨fs, _, loaded, run, rfl, (files_exclusive_iff loaded run).2.1 2⟩

/-- Two tasks open the same file, one after the other, when new memory is zero. -/
theorem files_two_owners :
    ∃ fs calls s, initInitrd (store (fun _ => 0) 0x100000 (makeInitrd (fun _ => 0) oneFile))
        0x100000 = some fs ∧
      Run (FileStep fs) .initial calls s ∧
      ∃ owner ∈ s.owners, ∃ other ∈ s.owners, owner.file = other.file ∧ owner.task ≠ other.task := by
  obtain ⟨fs, loaded, exists_, -⟩ := oneFile_mounted
  have proper := initInitrd_proper loaded
  obtain ⟨state, opens, second, live, fresh⟩ := first_opens proper exists_
  obtain ⟨state', done', -⟩ := @handleAcquire_free fs 2 [0x61] (zeroed 0x2000)
    proper exists_ state second rfl ⟨1, some []⟩ [] live rfl
  have opens' : FileStep fs ⟨state, [⟨1, 0x1000, fileOf fs [0x61]⟩]⟩
      (.acquire 2 [0x61] (zeroed 0x2000))
      ⟨state', [⟨1, 0x1000, fileOf fs [0x61]⟩, ⟨2, 0x2000, fileOf fs [0x61]⟩]⟩ :=
    ⟨⟨by rw [live]; rfl, by decide, fresh⟩, some .success, by rw [performFile, done']; rfl⟩
  have apart : (1 : Addr) ≠ 2 := by decide
  exact ⟨fs, _, _, loaded, (twoTasks_run.snoc opens).snoc opens', _, List.mem_cons_self, _,
    List.mem_cons_of_mem _ List.mem_cons_self, rfl, apart⟩

end Neutrino.Fs
