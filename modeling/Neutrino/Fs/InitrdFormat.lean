import Neutrino.Fs.Initrd

namespace Neutrino.Fs

open Library

/-- What `make-initrd` can pack: names that fit with their terminating zero, none of them taken by
    the device directory, and no image of 2 GiB. -/
structure Packable (files : List InputFile) : Prop where
  count : files.length ≤ 64
  name : ∀ file ∈ files, 1 ≤ file.basename.length ∧ file.basename.length ≤ 63 ∧
    ∀ byte ∈ file.basename, byte ≠ 0
  device : ∀ file ∈ files, file.basename ≠ devName
  distinct : (files.map (·.basename)).Nodup
  size : headerSize * 64 + 4 + (files.map (·.contents.length)).sum < 2 ^ 31

/-- The header of a file, at its place in a table of headers. -/
structure HeaderOf (mem : ByteMemory) (headers : W64) (i : Nat) (file : InputFile) (offset : Nat) :
    Prop where
  name : load mem (headerAt headers i nameField) (file.basename.length + 1) = file.basename ++ [0]
  offset : load mem (headerAt headers i offsetField) 8 = le 8 offset
  length : load mem (headerAt headers i lengthField) 4 = le 4 file.contents.length

section Frames

variable {mem : ByteMemory} {headers : W64} {i j : Nat} {file other : InputFile} {offset : Nat}
  {bytes : List Byte}

theorem load_headerAt_apart {field field' n : Nat} (bound : i < 64 ∧ j < 64)
    (inside : field + bytes.length ≤ headerSize ∧ field' + n ≤ headerSize)
    (apart : i ≠ j ∨ field + bytes.length ≤ field' ∨ field' + n ≤ field) :
    load (store mem (headerAt headers i field) bytes) (headerAt headers j field') n =
      load mem (headerAt headers j field') n := by
  simp only [headerSize] at inside
  apply load_store_apart
  · simp only [headerSize]
    omega
  · simp only [headerSize]
    omega

theorem load_headerAt_self {field : Nat} (fits : bytes.length ≤ headerSize) :
    load (store mem (headerAt headers i field) bytes) (headerAt headers i field) bytes.length =
      bytes := by
  have size : headerSize = 88 := rfl
  exact load_store_self (by omega)

theorem HeaderOf.store_other (header : HeaderOf mem headers j other offset)
    (short : other.basename.length ≤ 63) (bound : i < 64 ∧ j < 64) (rows : i ≠ j) {field : Nat}
    (inside : field + bytes.length ≤ headerSize) :
    HeaderOf (store mem (headerAt headers i field) bytes) headers j other offset := by
  have size : headerSize = 88 := rfl
  constructor
  · rw [load_headerAt_apart bound ⟨inside, by simp only [nameField]; omega⟩ (.inl rows), header.name]
  · rw [load_headerAt_apart bound ⟨inside, by simp only [offsetField]; omega⟩ (.inl rows),
      header.offset]
  · rw [load_headerAt_apart bound ⟨inside, by simp only [lengthField]; omega⟩ (.inl rows),
      header.length]

end Frames

section Encoder

variable {stack : ByteMemory} {off : W32} {i : Nat} {file : InputFile}

theorem length_toNat (small : file.contents.length < 2 ^ 32) :
    file.length.toNat = file.contents.length := by
  rw [InputFile.length, BitVec.toNat_ofNat]
  exact Nat.mod_eq_of_lt small

theorem writeHeader_self (short : file.basename.length ≤ 63) (bound : i < 64)
    (small : file.contents.length < 2 ^ 32) :
    HeaderOf (writeHeader stack i file off) 0 i file off.toNat := by
  have size : headerSize = 88 := rfl
  have named : (file.basename ++ [0]).length = file.basename.length + 1 := by simp
  simp only [writeHeader]
  constructor
  · rw [load_headerAt_apart ⟨bound, bound⟩ (by simp [size, nameField]; omega)
        (.inr (.inl (by simp [nameField]))),
      load_headerAt_apart ⟨bound, bound⟩ (by simp [size, nameField, lengthField]; omega)
        (.inr (.inr (by simp [nameField, lengthField]; omega))),
      load_headerAt_apart ⟨bound, bound⟩ (by simp [size, nameField, offsetField]; omega)
        (.inr (.inr (by simp [nameField, offsetField]; omega))), ← named]
    exact load_headerAt_self (by rw [named]; omega)
  · rw [load_headerAt_apart ⟨bound, bound⟩ (by simp [size, offsetField])
        (.inr (.inl (by simp [offsetField]))),
      load_headerAt_apart ⟨bound, bound⟩ (by simp [size, offsetField, lengthField])
        (.inr (.inr (by simp [offsetField, lengthField])))]
    have stored := @load_headerAt_self (store stack (headerAt 0 i nameField) (file.basename ++ [0]))
      0 i (le 8 off.toNat) offsetField (by simp [size])
    rwa [le_length] at stored
  · rw [load_headerAt_apart ⟨bound, bound⟩ (by simp [size, lengthField])
        (.inr (.inl (by simp [lengthField])))]
    have stored := @load_headerAt_self (store (store stack (headerAt 0 i nameField)
      (file.basename ++ [0])) (headerAt 0 i offsetField) (le 8 off.toNat))
      0 i (le 4 file.length.toNat) lengthField (by simp [size])
    rw [le_length] at stored
    rw [stored, length_toNat small]

theorem writeHeader_other {j offset : Nat} {other : InputFile}
    (header : HeaderOf stack 0 j other offset) (short : file.basename.length ≤ 63)
    (short' : other.basename.length ≤ 63) (bound : i < 64 ∧ j < 64) (rows : i ≠ j) :
    HeaderOf (writeHeader stack i file off) 0 j other offset := by
  have size : headerSize = 88 := rfl
  simp only [writeHeader]
  apply HeaderOf.store_other _ short' bound rows (by simp [size])
  apply HeaderOf.store_other _ short' bound rows (by simp [size, lengthField])
  apply HeaderOf.store_other _ short' bound rows (by simp [size, offsetField])
  exact header.store_other short' bound rows (by simp [size, nameField]; omega)

/-- Where the contents of the file with this number begin, counted from `off`. -/
def startOf (files : List InputFile) (k : Nat) : Nat :=
  ((files.take k).map (·.contents.length)).sum

theorem writeHeaders_spec (stack : ByteMemory) (off : W32) (i : Nat) (files : List InputFile) (short : ∀ file ∈ files,
    file.basename.length ≤ 63) (room : i + files.length ≤ 64)
    (small : off.toNat + (files.map (·.contents.length)).sum < 2 ^ 31) :
    (∀ j other offset, j < i → other.basename.length ≤ 63 → HeaderOf stack 0 j other offset →
      HeaderOf (writeHeaders stack off i files) 0 j other offset) ∧
    ∀ k file, files[k]? = some file → HeaderOf (writeHeaders stack off i files) 0 (i + k) file
      (off.toNat + startOf files k) := by
  induction files generalizing stack off i with
  | nil => exact ⟨fun _ _ _ _ _ header => header, by simp⟩
  | cons file files ih =>
    simp only [List.map_cons, List.sum_cons, List.length_cons] at small room
    have first := short file List.mem_cons_self
    have length : file.length.toNat = file.contents.length := length_toNat (by omega)
    have next : (off + file.length).toNat = off.toNat + file.contents.length := by
      rw [BitVec.toNat_add, length]
      exact Nat.mod_eq_of_lt (by omega)
    obtain ⟨before, after⟩ := ih (writeHeader stack i file off) (off + file.length) (i + 1)
      (fun other member => short other (List.mem_cons_of_mem _ member)) (by omega)
      (by rw [next]; omega)
    constructor
    · intro j other offset earlier short' header
      exact before j other offset (by omega) short'
        (writeHeader_other header first short' (by omega) (by omega))
    · intro k other at_
      cases k with
      | zero =>
        cases at_
        exact before i file _ (by omega) first (writeHeader_self first (by omega) (by omega))
      | succ k =>
        have header := after k other at_
        rw [next] at header
        have moved : off.toNat + file.contents.length + startOf files k =
            off.toNat + startOf (file :: files) (k + 1) := by
          simp [startOf, Nat.add_assoc]
        have row : i + 1 + k = i + (k + 1) := by omega
        rwa [moved, row] at header

theorem startOf_add_length {files : List InputFile} {k : Nat} (at_ : files[k]? = some file) :
    startOf files k + file.contents.length ≤ (files.map (·.contents.length)).sum := by
  induction files generalizing k with
  | nil => simp at at_
  | cons first files ih =>
    cases k with
    | zero =>
      cases at_
      simp [startOf]
    | succ k =>
      have later := ih at_
      simp only [startOf, List.take_succ_cons, List.map_cons, List.sum_cons] at later ⊢
      omega

theorem nheaders_eq {files : List InputFile} (count : files.length ≤ 64) :
    nheaders files = files.length := by
  unfold nheaders
  rw [Int.bmod_def]
  omega

/-- The table of headers, as it is written to the image. -/
def headerTable (stack : ByteMemory) (files : List InputFile) : ByteMemory :=
  writeHeaders stack (BitVec.ofNat 32 (headerSize * 64 + 4)) 0 files

theorem Packable.makeInitrd_eq {files : List InputFile} (packable : Packable files)
    (stack : ByteMemory) :
    makeInitrd stack files = le 4 files.length ++
      (load (headerTable stack files) 0 (headerSize * 64) ++ files.flatMap (·.contents)) := by
  have count := nheaders_eq packable.count
  have whole : files.flatMap (fun file => file.contents.take file.length.toNat) =
      files.flatMap (·.contents) := by
    apply List.flatMap_congr
    intro file member
    obtain ⟨k, at_⟩ := List.mem_iff_getElem?.mp member
    have part := startOf_add_length at_
    have bound := packable.size
    rw [length_toNat (by omega), List.take_length]
  have written : (files.length : Int) % 2 ^ 32 = files.length := by
    have bound := packable.count
    omega
  simp only [makeInitrd, count, Int.toNat_natCast, List.take_length, whole, written,
    List.append_assoc]
  rfl

end Encoder

section Image

variable {mem : ByteMemory} {addr : W64} {stack : ByteMemory} {files : List InputFile}

theorem length_flatMap_contents (files : List InputFile) :
    (files.flatMap (·.contents)).length = (files.map (·.contents.length)).sum := by
  induction files with
  | nil => rfl
  | cons file files ih => simp [ih]

theorem Packable.length_makeInitrd (packable : Packable files) (stack : ByteMemory) :
    (makeInitrd stack files).length =
      headerSize * 64 + 4 + (files.map (·.contents.length)).sum := by
  rw [packable.makeInitrd_eq, List.length_append, List.length_append, le_length, load_length,
    length_flatMap_contents]
  omega

theorem flatMap_contents_part {k : Nat} {file : InputFile} (at_ : files[k]? = some file)
    {o n : Nat} (inside : o + n ≤ file.contents.length) :
    ((files.flatMap (·.contents)).drop (startOf files k + o)).take n =
      (file.contents.drop o).take n := by
  induction files generalizing k with
  | nil => simp at at_
  | cons first files ih =>
    cases k with
    | zero =>
      cases at_
      simp only [startOf, List.take_zero, List.map_nil, List.sum_nil, Nat.zero_add,
        List.flatMap_cons]
      rw [List.drop_append_of_le_length (by omega), List.take_append_of_le_length]
      simp only [List.length_drop]
      omega
    | succ k =>
      have later := ih at_
      have start : startOf (first :: files) (k + 1) + o =
          first.contents.length + (startOf files k + o) := by
        simp [startOf, Nat.add_assoc]
      rw [List.flatMap_cons, start, ← List.drop_drop, List.drop_left]
      exact later

variable (packable : Packable files) (placed : load mem addr (makeInitrd stack files).length =
  makeInitrd stack files)
include packable placed

theorem load_header_image {k field n : Nat} (inside : headerSize * k + field + n ≤ headerSize * 64) :
    load mem (headerAt (addr + 4) k field) n =
      load (headerTable stack files) (headerAt 0 k field) n := by
  have total := packable.length_makeInitrd stack
  have place : headerAt (addr + 4) k field =
      addr + BitVec.ofNat 64 (4 + (headerSize * k + field)) := by
    rw [headerAt, BitVec.add_assoc, BitVec.ofNat_add 4]
    rfl
  rw [place, load_part placed (by omega), packable.makeInitrd_eq, ← List.drop_drop]
  have skip : (le 4 files.length ++ (load (headerTable stack files) 0 (headerSize * 64) ++
      files.flatMap (·.contents))).drop 4 =
      load (headerTable stack files) 0 (headerSize * 64) ++ files.flatMap (·.contents) :=
    List.drop_left' (le_length 4 _)
  have own : load (headerTable stack files) 0 (load (headerTable stack files) 0
      (headerSize * 64)).length = load (headerTable stack files) 0 (headerSize * 64) := by
    rw [load_length]
  rw [skip, List.drop_append_of_le_length (by rw [load_length]; omega),
    List.take_append_of_le_length (by rw [List.length_drop, load_length]; omega), headerAt,
    load_part own (by rw [load_length]; omega)]

theorem header_image {k : Nat} {file : InputFile} (at_ : files[k]? = some file) :
    HeaderOf mem (addr + 4) k file (headerSize * 64 + 4 + startOf files k) := by
  have row : k < 64 := by
    have bound := (List.getElem?_eq_some_iff.mp at_).1
    have count := packable.count
    omega
  have short := (packable.name file (List.mem_of_getElem? at_)).2.1
  have total := packable.size
  have begin_ : (BitVec.ofNat 32 (headerSize * 64 + 4)).toNat = headerSize * 64 + 4 := rfl
  have written := (writeHeaders_spec stack (BitVec.ofNat 32 (headerSize * 64 + 4)) 0 files
    (fun file member => (packable.name file member).2.1)
    (by have count := packable.count; omega) (by rw [begin_]; exact total)).2 k file at_
  rw [Nat.zero_add, begin_] at written
  constructor
  · rw [load_header_image packable placed (by simp only [headerSize, nameField]; omega)]
    exact written.name
  · rw [load_header_image packable placed (by simp only [headerSize, offsetField]; omega)]
    exact written.offset
  · rw [load_header_image packable placed (by simp only [headerSize, lengthField]; omega)]
    exact written.length

theorem contents_image {k : Nat} {file : InputFile} (at_ : files[k]? = some file) {o n : Nat}
    (inside : o + n ≤ file.contents.length) :
    load mem (addr + BitVec.ofNat 64 (headerSize * 64 + 4 + startOf files k + o)) n =
      (file.contents.drop o).take n := by
  have total := packable.length_makeInitrd stack
  have part := flatMap_contents_part at_ inside
  have behind := startOf_add_length at_
  rw [load_part placed (by omega), packable.makeInitrd_eq, ← List.append_assoc]
  have front : (le 4 files.length ++ load (headerTable stack files) 0 (headerSize * 64)).length =
      headerSize * 64 + 4 := by
    rw [List.length_append, le_length, load_length, Nat.add_comm]
  rw [Nat.add_assoc, ← List.drop_drop, List.drop_left' front]
  exact part

theorem count_image : ofLe (load mem addr 4) = files.length := by
  have total := packable.length_makeInitrd stack
  have first := load_part (i := 0) (n := 4) placed (by omega)
  rw [packable.makeInitrd_eq, List.drop_zero, List.take_left' (le_length 4 _)] at first
  simp only [BitVec.add_zero] at first
  rw [first, ofLe_le]
  have bound := packable.count
  exact Nat.mod_eq_of_lt (by omega)

end Image

section Decoder

variable {mem : ByteMemory} {addr headers : W64} {i : Nat} {file : InputFile} {offset : Nat}

def fileNode (i : Nat) (file : InputFile) : FsNode where
  name := file.basename
  flags := fsFile
  length := file.length
  inode := BitVec.ofNat 32 i
  read := true
  readdir := false
  finddir := false

def fileNodes : Nat → List InputFile → List FsNode
  | _, [] => []
  | i, file :: files => fileNode i file :: fileNodes (i + 1) files

theorem fileNodes_getElem? (i k : Nat) (files : List InputFile) :
    (fileNodes i files)[k]? = (files[k]?).map (fileNode (i + k)) := by
  induction files generalizing i k with
  | nil => simp [fileNodes]
  | cons file files ih =>
    cases k with
    | zero => simp [fileNodes]
    | succ k =>
      simp only [fileNodes, List.getElem?_cons_succ, ih]
      congr 2
      omega

@[simp]
theorem fileNodes_length (i : Nat) (files : List InputFile) :
    (fileNodes i files).length = files.length := by
  induction files generalizing i with
  | nil => rfl
  | cons file files ih => simp [fileNodes, ih]

/-- The offset a header has once the address of the image is added to it. -/
def moved (addr : W64) (offset : Nat) : Nat := (BitVec.ofNat 64 offset + addr).toNat

theorem ofNat_mod_64 (n : Nat) : BitVec.ofNat 64 (n % 2 ^ 64) = BitVec.ofNat 64 n := by
  apply BitVec.eq_of_toNat_eq
  simp

theorem initFile_spec (header : HeaderOf mem headers i file offset) (bound : i < 64)
    (short : file.basename.length ≤ 63) (nonzero : ∀ byte ∈ file.basename, byte ≠ 0)
    (small : file.contents.length < 2 ^ 32) :
    initFile addr headers i mem = some
        (store mem (headerAt headers i offsetField) (le 8 (moved addr offset)), fileNode i file) ∧
      HeaderOf (store mem (headerAt headers i offsetField) (le 8 (moved addr offset))) headers i file
        (moved addr offset) := by
  have after : HeaderOf (store mem (headerAt headers i offsetField) (le 8 (moved addr offset)))
      headers i file (moved addr offset) := by
    constructor
    · rw [load_headerAt_apart ⟨bound, bound⟩
        (by simp [headerSize, nameField, offsetField]; omega)
        (.inr (.inr (by simp [nameField, offsetField]; omega))), header.name]
    · have stored := @load_headerAt_self mem headers i (le 8 (moved addr offset)) offsetField
        (by simp [headerSize])
      rwa [le_length] at stored
    · rw [load_headerAt_apart ⟨bound, bound⟩ (by simp [headerSize, lengthField, offsetField])
        (.inr (.inl (by simp [lengthField, offsetField]))), header.length]
  have offset_ : BitVec.ofNat 64 (ofLe (load mem (headerAt headers i offsetField) 8)) =
      BitVec.ofNat 64 offset := by
    rw [header.offset, ofLe_le]
    exact ofNat_mod_64 offset
  have length : BitVec.ofNat 32 (file.contents.length % 256 ^ 4) = file.length := by
    rw [Nat.mod_eq_of_lt (by omega)]
    rfl
  refine ⟨?_, after⟩
  simp only [initFile, offset_]
  rw [show (BitVec.ofNat 64 offset + addr).toNat = moved addr offset from rfl,
    cstring_of_load after.name nonzero (by omega), Option.map_some, after.length, ofLe_le, length]
  rfl

theorem initFiles_spec (files : List InputFile) (offsets : Nat → Nat)
    (written : ∀ k file, files[k]? = some file → HeaderOf mem headers (i + k) file (offsets k))
    (names : ∀ file ∈ files, file.basename.length ≤ 63 ∧ ∀ byte ∈ file.basename, byte ≠ 0)
    (small : ∀ file ∈ files, file.contents.length < 2 ^ 32) (room : i + files.length ≤ 64) :
    ∃ mem', initFiles addr headers i files.length mem = some (mem', fileNodes i files) ∧
      (∀ j other offset, j < i → other.basename.length ≤ 63 → HeaderOf mem headers j other offset →
        HeaderOf mem' headers j other offset) ∧
      (∀ k file, files[k]? = some file →
        HeaderOf mem' headers (i + k) file (moved addr (offsets k))) ∧
      ∀ x n, headerSize * 64 ≤ x → x + n ≤ 2 ^ 63 →
        load mem' (headers + BitVec.ofNat 64 x) n = load mem (headers + BitVec.ofNat 64 x) n := by
  induction files generalizing mem i offsets with
  | nil => exact ⟨mem, rfl, fun _ _ _ _ _ header => header, by simp, fun _ _ _ _ => rfl⟩
  | cons file files ih =>
    simp only [List.length_cons] at room
    have member : file ∈ file :: files := List.mem_cons_self
    obtain ⟨short, nonzero⟩ := names file member
    obtain ⟨done, header⟩ := @initFile_spec mem addr headers i file (offsets 0) (written 0 file rfl)
      (by omega) short nonzero (small file member)
    have fits : offsetField + (le 8 (moved addr (offsets 0))).length ≤ headerSize := by
      simp [offsetField, headerSize]
    have rest : ∀ k other, files[k]? = some other → HeaderOf (store mem
        (headerAt headers i offsetField) (le 8 (moved addr (offsets 0)))) headers (i + 1 + k) other
        (offsets (k + 1)) := by
      intro k other at_
      have bound := (List.getElem?_eq_some_iff.mp at_).1
      have row : i + 1 + k = i + (k + 1) := by omega
      rw [row]
      exact (written (k + 1) other at_).store_other
        (names other (List.mem_cons_of_mem _ (List.mem_of_getElem? at_))).1 (by omega) (by omega)
        fits
    obtain ⟨mem', done', before, after, behind⟩ := ih (fun k => offsets (k + 1)) rest
      (fun other later => names other (List.mem_cons_of_mem _ later))
      (fun other later => small other (List.mem_cons_of_mem _ later)) (by omega)
    refine ⟨mem', ?_, ?_, ?_, ?_⟩
    · simp [initFiles, done, done', fileNodes]
    · intro j other offset earlier short' old
      exact before j other offset (by omega) short'
        (old.store_other short' (by omega) (by omega) fits)
    · intro k other at_
      cases k with
      | zero =>
        cases at_
        exact before i file _ (by omega) short header
      | succ k =>
        have moved_ := after k other at_
        have row : i + 1 + k = i + (k + 1) := by omega
        rwa [row] at moved_
    · intro x n far small'
      simp only [headerSize] at far
      rw [behind x n far small', headerAt, load_store_apart]
      · left
        simp only [headerSize, offsetField, le_length]
        omega
      · simp only [headerSize, offsetField, le_length]
        omega

end Decoder

end Neutrino.Fs
