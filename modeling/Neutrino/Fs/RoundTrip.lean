import Neutrino.Fs.Directory
import Neutrino.Fs.InitrdFormat

namespace Neutrino.Fs

open Library

variable {mem : ByteMemory} {addr : W64} {stack : ByteMemory} {files : List InputFile} {fs : Initrd}

/-- The file system that `init_initrd` makes of an image of the files. -/
structure Mounted (fs : Initrd) (addr : W64) (files : List InputFile) : Prop where
  root : fs.initrdRoot = directoryNode initrdName
  dev : fs.initrdDev = directoryNode devName
  nodes : fs.rootNodes = fileNodes 0 files
  count : fs.nrootNodes = BitVec.ofNat 32 files.length
  headers : fs.fileHeaders = addr + 4
  header : ∀ k file, files[k]? = some file → HeaderOf fs.mem (addr + 4) k file
    (moved addr (headerSize * 64 + 4 + startOf files k))
  contents : ∀ k file, files[k]? = some file → ∀ o n, o + n ≤ file.contents.length →
    load fs.mem (addr + BitVec.ofNat 64 (headerSize * 64 + 4 + startOf files k + o)) n =
      (file.contents.drop o).take n

theorem Packable.contents_lt (packable : Packable files) {k : Nat} {file : InputFile}
    (at_ : files[k]? = some file) : startOf files k + file.contents.length < 2 ^ 31 := by
  have part := startOf_add_length at_
  have total := packable.size
  omega

theorem mounted (packable : Packable files)
    (placed : load mem addr (makeInitrd stack files).length = makeInitrd stack files) :
    ∃ fs, initInitrd mem addr = some fs ∧ Mounted fs addr files := by
  have count := count_image packable placed
  have rows : (BitVec.ofNat 32 files.length).toNat = files.length := by
    have bound := packable.count
    rw [BitVec.toNat_ofNat]
    exact Nat.mod_eq_of_lt (by omega)
  obtain ⟨mem', done, -, headers, behind⟩ := @initFiles_spec mem addr (addr + 4) 0 files
    (fun k => headerSize * 64 + 4 + startOf files k)
    (fun k file at_ => by
      rw [Nat.zero_add]
      exact header_image packable placed at_)
    (fun file member => (packable.name file member).2)
    (fun file member => by
      obtain ⟨k, at_⟩ := List.mem_iff_getElem?.mp member
      have bound := packable.contents_lt at_
      omega)
    (by have bound := packable.count; omega)
  have loaded : initInitrd mem addr = some ⟨mem', addr + 4, directoryNode initrdName,
      directoryNode devName, fileNodes 0 files, BitVec.ofNat 32 files.length⟩ := by
    simp only [initInitrd, count, rows, done, Option.map_some]
  refine ⟨_, loaded, ?_⟩
  constructor
  · rfl
  · rfl
  · rfl
  · rfl
  · rfl
  · intro k file at_
    have header := headers k file at_
    rwa [Nat.zero_add] at header
  · intro k file at_ o n inside
    have bound := packable.contents_lt at_
    have place : addr + BitVec.ofNat 64 (headerSize * 64 + 4 + startOf files k + o) =
        addr + 4 + BitVec.ofNat 64 (headerSize * 64 + startOf files k + o) := by
      have order : headerSize * 64 + 4 + startOf files k + o =
          4 + (headerSize * 64 + startOf files k + o) := by omega
      rw [order, BitVec.ofNat_add 4, ← BitVec.add_assoc]
      rfl
    have image := contents_image packable placed at_ inside
    rw [place] at image ⊢
    rw [behind _ n (by omega) (by simp only [headerSize]; omega), image]

theorem clamped_size {offset size length : W32} (within : offset.toNat ≤ length.toNat)
    (sum : offset.toNat + size.toNat < 2 ^ 32) :
    (if offset + size > length then length - offset else size).toNat =
      min size.toNat (length.toNat - offset.toNat) := by
  have total : (offset + size).toNat = offset.toNat + size.toNat := by
    rw [BitVec.toNat_add]
    exact Nat.mod_eq_of_lt sum
  split
  · rename_i beyond
    rw [gt_iff_lt, BitVec.lt_def, total] at beyond
    rw [BitVec.toNat_sub_of_le (BitVec.le_def.mpr within)]
    omega
  · rename_i inside
    rw [gt_iff_lt, BitVec.lt_def, total] at inside
    omega

section Directory

variable (here : Mounted fs addr files) (packable : Packable files)
include here packable

theorem Mounted.proper : fs.Proper where
  root := here.root
  dev := here.dev
  files node member := by
    obtain ⟨k, at_⟩ := List.mem_iff_getElem?.mp member
    rw [here.nodes, fileNodes_getElem?] at at_
    obtain ⟨file, -, rfl⟩ := Option.map_eq_some_iff.mp at_
    simp [isFile, fileNode, fsFile]
  count := by
    have rows := packable.count
    rw [here.count, here.nodes, fileNodes_length, BitVec.toNat_ofNat]
    exact Nat.mod_eq_of_lt (by omega)

theorem Mounted.readdir_file (k : Nat) (bound : k ≤ files.length) :
    (fsReaddir fs .root (BitVec.ofNat 32 (k + 1))).map (·.name) = (files[k]?).map (·.basename) := by
  have rows := packable.count
  rw [(here.proper packable).fsReaddir_file (by omega), here.nodes, fileNodes_getElem?]
  cases files[k]? <;> rfl

theorem Mounted.listing :
    (List.range (files.length + 2)).map
        (fun i => (fsReaddir fs .root (BitVec.ofNat 32 i)).map (·.name)) =
      some devName :: files.map (fun file => some file.basename) ++ [none] := by
  have device : (fsReaddir fs .root (BitVec.ofNat 32 0)).map (·.name) = some devName := by
    rw [(here.proper packable).fsReaddir_dev]
    rfl
  rw [List.range_succ_eq_map, List.map_cons, device, List.cons_append, List.map_map]
  congr 1
  rw [List.range_succ, List.map_append]
  congr 1
  · apply List.ext_getElem?
    intro k
    by_cases within : k < files.length
    · rw [List.getElem?_map, List.getElem?_range within, Option.map_some, List.getElem?_map,
        Function.comp, Nat.succ_eq_add_one, here.readdir_file packable k (by omega),
        List.getElem?_eq_getElem within]
      rfl
    · rw [List.getElem?_eq_none (by simpa using within), List.getElem?_eq_none (by simpa using within)]
  · simp only [List.map_cons, List.map_nil, Function.comp, Nat.succ_eq_add_one]
    rw [here.readdir_file packable files.length (Nat.le_refl _), List.getElem?_eq_none (Nat.le_refl _)]
    rfl

omit here packable in
theorem findFile_of_distinct {file : InputFile} {k : Nat} (i : Nat)
    (distinct : (files.map (·.basename)).Nodup) (at_ : files[k]? = some file) :
    findFile file.basename i (fileNodes i files) = some (.file (i + k)) := by
  induction files generalizing i k with
  | nil => simp at at_
  | cons first files ih =>
    rw [List.map_cons, List.nodup_cons] at distinct
    cases k with
    | zero =>
      cases at_
      simp [fileNodes, findFile, fileNode]
    | succ k =>
      have apart : file.basename ≠ first.basename := by
        intro same
        exact distinct.1 (same ▸ List.mem_map_of_mem (List.mem_of_getElem? at_))
      have later := ih (i + 1) distinct.2 at_
      have row : i + 1 + k = i + (k + 1) := by omega
      rw [fileNodes, findFile, fileNode, if_neg apart, later, row]

theorem Mounted.finddir_file {file : InputFile} {k : Nat} (at_ : files[k]? = some file) :
    fsFinddir fs .root file.basename = some (.file k) := by
  have found := findFile_of_distinct 0 packable.distinct at_
  rw [(here.proper packable).fsFinddir_root,
    if_neg (packable.device file (List.mem_of_getElem? at_)), here.nodes, found, Nat.zero_add]

theorem Mounted.read_file {file : InputFile} {k : Nat} (at_ : files[k]? = some file)
    (offset size : W32) (sum : offset.toNat + size.toNat < 2 ^ 32) :
    fsRead fs (.file k) offset size =
      some (BitVec.ofNat 32 ((file.contents.drop offset.toNat).take size.toNat).length,
        (file.contents.drop offset.toNat).take size.toNat) := by
  have bound := packable.contents_lt at_
  have rows := packable.count
  have row := (List.getElem?_eq_some_iff.mp at_).1
  have header := here.header k file at_
  have length : BitVec.ofNat 32 (ofLe (load fs.mem (headerAt (addr + 4) k lengthField) 4)) =
      BitVec.ofNat 32 file.contents.length := by
    rw [header.length, ofLe_le, Nat.mod_eq_of_lt (by omega)]
  have lengthNat : (BitVec.ofNat 32 file.contents.length).toNat = file.contents.length := by
    rw [BitVec.toNat_ofNat]
    exact Nat.mod_eq_of_lt (by omega)
  have start : BitVec.ofNat 64 (ofLe (load fs.mem (headerAt (addr + 4) k offsetField) 8)) +
      offset.setWidth 64 =
      addr + BitVec.ofNat 64 (headerSize * 64 + 4 + startOf files k + offset.toNat) := by
    rw [header.offset, ofLe_le, show (256 : Nat) ^ 8 = 2 ^ 64 from rfl, ofNat_mod_64, moved,
      BitVec.ofNat_toNat, BitVec.setWidth_eq, BitVec.ofNat_add _ offset.toNat, BitVec.ofNat_toNat]
    rw [BitVec.add_comm _ addr, BitVec.add_assoc]
  have inode : (fileNode k file).inode.toNat = k := by
    simp only [fileNode, BitVec.toNat_ofNat]
    exact Nat.mod_eq_of_lt (by omega)
  have node : fs.node (.file k) = some (fileNode k file) := by
    rw [Initrd.node, here.nodes, fileNodes_getElem?, at_, Nat.zero_add]
    rfl
  have reads : (fileNode k file).read = true := rfl
  simp only [fsRead, node, Option.map_some, reads, if_true, initrdRead, here.headers, inode, length,
    start]
  by_cases past : offset > BitVec.ofNat 32 file.contents.length
  · have past' : file.contents.length < offset.toNat := by
      rwa [gt_iff_lt, BitVec.lt_def, lengthNat] at past
    rw [if_pos past, List.drop_eq_nil_of_le (by omega), List.take_nil]
    rfl
  · have within : offset.toNat ≤ file.contents.length := by
      rw [gt_iff_lt, BitVec.lt_def, lengthNat] at past
      omega
    rw [if_neg past]
    rw [← lengthNat] at within
    have count := clamped_size within sum
    rw [lengthNat] at count within
    generalize (if offset + size > BitVec.ofNat 32 file.contents.length then
      BitVec.ofNat 32 file.contents.length - offset else size) = copied at count
    have positive : copied.toInt.toNat = copied.toNat := by
      rw [BitVec.toInt_eq_toNat_of_lt (by omega), Int.toNat_natCast]
    have bytes := here.contents k file at_ offset.toNat copied.toNat (by omega)
    have taken : (file.contents.drop offset.toNat).take copied.toNat =
        (file.contents.drop offset.toNat).take size.toNat := by
      rw [count, ← List.take_take, List.take_of_length_le (i := file.contents.length - _)]
      simp
    rw [positive, bytes, taken, List.length_take, List.length_drop, ← count, BitVec.ofNat_toNat,
      BitVec.setWidth_eq]

end Directory

/-- An image of the files, mounted, lists them in order, finds each of them under its name, and
    reads its bytes. -/
theorem initrd_roundtrip (packable : Packable files)
    (placed : load mem addr (makeInitrd stack files).length = makeInitrd stack files) :
    ∃ fs, initInitrd mem addr = some fs ∧
      (List.range (files.length + 2)).map
          (fun i => (fsReaddir fs .root (BitVec.ofNat 32 i)).map (·.name)) =
        some devName :: files.map (fun file => some file.basename) ++ [none] ∧
      ∀ file ∈ files, ∃ ref node, fsFinddir fs .root file.basename = some ref ∧
        fs.node ref = some node ∧ isFile node ∧ node.length.toNat = file.contents.length ∧
        ∀ offset size : W32, offset.toNat + size.toNat < 2 ^ 32 →
          fsRead fs ref offset size =
            some (BitVec.ofNat 32 ((file.contents.drop offset.toNat).take size.toNat).length,
              (file.contents.drop offset.toNat).take size.toNat) := by
  obtain ⟨fs, loaded, here⟩ := mounted packable placed
  refine ⟨fs, loaded, here.listing packable, ?_⟩
  intro file member
  obtain ⟨k, at_⟩ := List.mem_iff_getElem?.mp member
  refine ⟨.file k, fileNode k file, here.finddir_file packable at_, ?_, by simp [isFile, fileNode, fsFile],
    ?_, ?_⟩
  · rw [Initrd.node, here.nodes, fileNodes_getElem?, at_, Nat.zero_add]
    rfl
  · have bound := packable.contents_lt at_
    exact length_toNat (by omega)
  · intro offset size sum
    exact here.read_file packable at_ offset size sum

def oneFile : List InputFile := [⟨[0x61], [1, 2, 3]⟩]

theorem oneFile_packable : Packable oneFile := by
  constructor <;> simp [oneFile, devName, headerSize]

theorem initrd_roundtrip_one :
    ∃ fs ref, initInitrd (store (fun _ => 0) 0x100000 (makeInitrd (fun _ => 0xff) oneFile))
        0x100000 = some fs ∧
      fsFinddir fs .root [0x61] = some ref ∧ fsRead fs ref 1 5 = some (2, [2, 3]) := by
  have fits : (makeInitrd (fun _ => 0xff) oneFile).length ≤ 2 ^ 64 := by
    have total := oneFile_packable.length_makeInitrd fun _ => 0xff
    have bound := oneFile_packable.size
    omega
  obtain ⟨fs, loaded, -, found⟩ := initrd_roundtrip oneFile_packable (load_store_self fits)
  obtain ⟨ref, -, at_, -, -, -, reads⟩ := found ⟨[0x61], [1, 2, 3]⟩ List.mem_cons_self
  exact ⟨fs, ref, loaded, at_, reads 1 5 (by decide)⟩

end Neutrino.Fs
