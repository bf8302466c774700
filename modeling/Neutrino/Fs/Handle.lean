import Neutrino.Fs.Initrd
import Neutrino.Library.Runs

namespace Neutrino.Fs

open Library

abbrev Addr := W64

inductive HandleResult
  | success
  | error
  | badRequest
  | alreadyOwned
deriving DecidableEq

/-- `HANDLE_TYPE_FILE` is the only type there is. -/
structure Handle where
  type : W32
  read : Bool
  write : Bool
  ownerPid : W32
  fsnode : NodeRef

/-- Of a task its pid and its list of handles. There is no list behind a pointer that was never
    set. -/
structure HandleTask where
  pid : W32
  handles : Option (List Addr)

structure HandleState where
  globalPid : W32
  tasks : Addr → Option HandleTask
  globalHandles : List Addr
  handles : Addr → Option Handle

/-- The address of the static `dirent` that every `readdir` fills in and returns. -/
def direntAddress : Addr := 0xffffffff80100000

/-- What `kmalloc` hands out for a `Handle`: an address, and what stands there. -/
structure HandleMemory where
  handle : Addr
  contents : Handle

/-- The loop of `handle_get_or_create_fsnode`, as far as the file it stops at. There is no outcome
    when it reads through a null node. -/
def findFsnode (fs : Initrd) (path : List Byte) : Nat → Nat → Option (Option NodeRef)
  | 0, _ => none
  | fuel + 1, i =>
    match fsReaddir fs .root (BitVec.ofNat 32 i) with
    | none => some none
    | some node =>
      (fsFinddir fs .root node.name).bind fun ref =>
        (fs.node ref).bind fun fsnode =>
          if isFile fsnode && fsnode.name == path then some (some ref)
          else findFsnode fs path fuel (i + 1)

def handleGetOrCreateFsnode (fs : Initrd) (memory : HandleMemory) (path : List Byte)
    (s : HandleState) : Option (Option Addr × HandleState) :=
  (findFsnode fs path (fs.rootNodes.length + 2) 0).map fun found =>
    match found with
    | none => (none, s)
    | some fsnode =>
      if direntAddress ∈ s.globalHandles then (some direntAddress, s)
      else
        let handle := { memory.contents with fsnode, read := true, write := false }
        (some memory.handle, { s with
          handles := Function.update s.handles memory.handle (some handle)
          globalHandles := s.globalHandles ++ [memory.handle] })

/-- `handle_acquire` for a file, on behalf of a task that exists. -/
def handleAcquire (fs : Initrd) (memory : HandleMemory) (task : Addr) (path : List Byte)
    (s : HandleState) : Option (HandleResult × HandleState) :=
  (handleGetOrCreateFsnode fs memory path s).bind fun (handle, s) =>
    match handle with
    | none => some (.error, s)
    | some address =>
      (s.handles address).bind fun handle =>
        if handle.ownerPid != 0 then some (.alreadyOwned, s)
        else
          (s.tasks task).bind fun owner =>
            owner.handles.map fun list =>
              (.success, { s with
                handles := Function.update s.handles address (some { handle with ownerPid := owner.pid })
                tasks := Function.update s.tasks task (some { owner with handles := some (list ++ [address]) }) })

def handleRelease (task handle : Addr) (s : HandleState) : HandleState :=
  if task == 0 || handle == 0 then s
  else match s.globalHandles.findIdx? (· == handle) with
    | none => s
    | some i => { s with globalHandles := s.globalHandles.eraseIdx i }

/-- Of `NewTask` what concerns handles: the pid is counted up, the list is left as it is found.
    `Tasks.newTask` has the fields of the scheduler. -/
def newTask (task : Addr) (handles : Option (List Addr)) (s : HandleState) : HandleState :=
  { s with
    globalPid := s.globalPid + 1
    tasks := Function.update s.tasks task (some ⟨s.globalPid, handles⟩) }

/-- Of `DestroyTask` what concerns handles: the list goes with the task, and no handle is released. -/
def destroyTask (task : Addr) (s : HandleState) : HandleState :=
  { s with tasks := Function.update s.tasks task none }

def HandleState.initial : HandleState where
  globalPid := 0
  tasks := fun _ => none
  globalHandles := []
  handles := fun _ => none

end Neutrino.Fs
