import Neutrino.Fs.Initrd

namespace Neutrino.Fs

open Library

/-- What `init_initrd` makes of any image. -/
structure Initrd.Proper (fs : Initrd) : Prop where
  root : fs.initrdRoot = directoryNode initrdName
  dev : fs.initrdDev = directoryNode devName
  files : ∀ node ∈ fs.rootNodes, isFile node = true
  count : fs.nrootNodes.toNat = fs.rootNodes.length

theorem initFiles_files {addr fileHeaders : W64} {i count : Nat} {mem mem' : ByteMemory}
    {nodes : List FsNode} (done : initFiles addr fileHeaders i count mem = some (mem', nodes)) :
    nodes.length = count ∧ ∀ node ∈ nodes, isFile node = true := by
  induction count generalizing i mem nodes with
  | zero =>
    cases done
    simp
  | succ count ih =>
    obtain ⟨⟨next, node⟩, first, rest⟩ := Option.bind_eq_some_iff.mp done
    obtain ⟨⟨last, later⟩, looped, same⟩ := Option.map_eq_some_iff.mp rest
    obtain ⟨name, -, made⟩ := Option.map_eq_some_iff.mp first
    cases same
    cases made
    obtain ⟨length, files⟩ := ih looped
    refine ⟨by simp [length], ?_⟩
    intro node member
    rcases List.mem_cons.mp member with rfl | member
    · simp [isFile, fsFile]
    · exact files node member

theorem initInitrd_proper {mem : ByteMemory} {addr : W64} {fs : Initrd}
    (done : initInitrd mem addr = some fs) : fs.Proper := by
  obtain ⟨⟨mem', nodes⟩, looped, rfl⟩ := Option.map_eq_some_iff.mp done
  obtain ⟨length, files⟩ := initFiles_files looped
  exact ⟨rfl, rfl, files, length.symm⟩

variable {fs : Initrd} {path : List Byte}

theorem findFile_some {nodes : List FsNode} (i : Nat) (exists_ : ∃ node ∈ nodes, node.name = path) :
    ∃ ref, findFile path i nodes = some ref := by
  induction nodes generalizing i with
  | nil => simp at exists_
  | cons first nodes ih =>
    rw [findFile]
    split
    · exact ⟨_, rfl⟩
    · rename_i other
      obtain ⟨node, member, named⟩ := exists_
      rcases List.mem_cons.mp member with rfl | member
      · exact absurd named.symm other
      · exact ih (i + 1) ⟨node, member, named⟩

theorem findFile_inv {nodes : List FsNode} {i : Nat} {ref : NodeRef}
    (found : findFile path i nodes = some ref) :
    ∃ k node, ref = .file (i + k) ∧ nodes[k]? = some node ∧ node.name = path := by
  induction nodes generalizing i with
  | nil => cases found
  | cons first nodes ih =>
    rw [findFile] at found
    split at found
    · rename_i here
      cases found
      exact ⟨0, first, rfl, rfl, here.symm⟩
    · obtain ⟨k, node, rfl, at_, named⟩ := ih found
      exact ⟨k + 1, node, by congr 1; omega, at_, named⟩

namespace Initrd.Proper

variable (proper : fs.Proper)
include proper

theorem fsReaddir_root (index : W32) :
    fsReaddir fs .root index = initrdReaddir fs .root index := by
  simp [fsReaddir, Initrd.node, proper.root, isDirectory, directoryNode, fsDirectory]

theorem fsFinddir_root (name : List Byte) :
    fsFinddir fs .root name =
      if name = devName then some .dev else findFile name 0 fs.rootNodes := by
  simp [fsFinddir, Initrd.node, proper.root, isDirectory, directoryNode, fsDirectory,
    initrdFinddir, proper.count]

theorem fsReaddir_file {k : Nat} (small : k + 1 < 2 ^ 32) :
    fsReaddir fs .root (BitVec.ofNat 32 (k + 1)) =
      (fs.rootNodes[k]?).map fun file => ⟨file.name, file.inode⟩ := by
  have index : BitVec.ofNat 32 (k + 1) - 1 = BitVec.ofNat 32 k := by
    rw [BitVec.ofNat_add]
    exact BitVec.add_sub_cancel ..
  have number : (BitVec.ofNat 32 k).toNat = k := by
    rw [BitVec.toNat_ofNat]
    exact Nat.mod_eq_of_lt (by omega)
  have later : BitVec.ofNat 32 (k + 1) ≠ 0#32 := by
    intro zero
    have zero := congrArg BitVec.toNat zero
    rw [BitVec.toNat_ofNat, Nat.mod_eq_of_lt (by omega)] at zero
    simp at zero
  rw [proper.fsReaddir_root, initrdReaddir, if_neg (by simp [later]), index, number]
  split
  · rename_i past
    rw [ge_iff_le, BitVec.le_def, number, proper.count] at past
    rw [List.getElem?_eq_none past]
    rfl
  · rfl

theorem lt_of_at {k : Nat} {node : FsNode} (at_ : fs.rootNodes[k]? = some node) :
    k + 1 < 2 ^ 32 := by
  have bound := (List.getElem?_eq_some_iff.mp at_).1
  have count := proper.count
  have word := fs.nrootNodes.isLt
  omega

theorem fsReaddir_dev : fsReaddir fs .root (BitVec.ofNat 32 0) = some ⟨devName, 0⟩ := by
  rw [proper.fsReaddir_root]
  rfl

end Initrd.Proper

end Neutrino.Fs
