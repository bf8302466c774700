import Neutrino.Library.Bytes
import Neutrino.Machine.Word

namespace Neutrino.Fs

open Library

abbrev Byte := BitVec 8

/-- The layout of a header, the same for `struct initrd_header` and `InitrdFileHeader`: one byte,
    64 bytes of name, a 64-bit offset and a 32-bit length, the last two aligned to their size. -/
def headerSize : Nat := 88

def nameField : Nat := 1
def offsetField : Nat := 72
def lengthField : Nat := 80

def headerAt (headers : W64) (i field : Nat) : W64 :=
  headers + BitVec.ofNat 64 (headerSize * i + field)

/-! The encoder, `make-initrd`. -/

structure InputFile where
  basename : List Byte
  contents : List Byte

def InputFile.length (file : InputFile) : W32 := BitVec.ofNat 32 file.contents.length

/-- One turn of the first loop: the fields of `headers[i]`. -/
def writeHeader (stack : ByteMemory) (i : Nat) (file : InputFile) (off : W32) : ByteMemory :=
  let stack := store stack (headerAt 0 i nameField) (file.basename ++ [0])
  let stack := store stack (headerAt 0 i offsetField) (le 8 off.toNat)
  let stack := store stack (headerAt 0 i lengthField) (le 4 file.length.toNat)
  store stack (headerAt 0 i 0) [0xbf]

def writeHeaders (stack : ByteMemory) (off : W32) : Nat → List InputFile → ByteMemory
  | _, [] => stack
  | i, file :: files =>
    writeHeaders (writeHeader stack i file off) (off + file.length) (i + 1) files

/-- `argc` is a `char`. -/
def nheaders (files : List InputFile) : Int := Int.bmod (files.length + 1) 256 - 1

/-- The image, from what the stack held where `headers` is. -/
def makeInitrd (stack : ByteMemory) (files : List InputFile) : List Byte :=
  let written := files.take (nheaders files).toNat
  let off := BitVec.ofNat 32 (headerSize * 64 + 4)
  le 4 (nheaders files % 2 ^ 32).toNat ++
    load (writeHeaders stack off 0 written) 0 (headerSize * 64) ++
    written.flatMap fun file => file.contents.take file.length.toNat

/-! The decoder, `fs/initrd.c` under `fs/fs.c`. -/

def fsFile : W64 := 1
def fsDirectory : W64 := 2

/-- Of the function pointers it matters which are null: the others are the initrd's own. -/
structure FsNode where
  name : List Byte
  flags : W64
  length : W32
  inode : W32
  read : Bool
  readdir : Bool
  finddir : Bool

def isDirectory (node : FsNode) : Bool := node.flags &&& 7 == fsDirectory
def isFile (node : FsNode) : Bool := node.flags &&& 7 == fsFile

inductive NodeRef
  | root
  | dev
  | file (i : Nat)
deriving DecidableEq

structure Initrd where
  mem : ByteMemory
  fileHeaders : W64
  initrdRoot : FsNode
  initrdDev : FsNode
  rootNodes : List FsNode
  nrootNodes : W32

def Initrd.node (fs : Initrd) : NodeRef → Option FsNode
  | .root => some fs.initrdRoot
  | .dev => some fs.initrdDev
  | .file i => fs.rootNodes[i]?

structure Dirent where
  name : List Byte
  ino : W32

def devName : List Byte := [0x64, 0x65, 0x76]
def initrdName : List Byte := [0x69, 0x6e, 0x69, 0x74, 0x72, 0x64]

/-- The bytes copied are those stored at `buffer`; `memory_copy` counts in an `int`. -/
def initrdRead (fs : Initrd) (node : FsNode) (offset size : W32) : W32 × List Byte :=
  let headerOffset := BitVec.ofNat 64 (ofLe (load fs.mem
    (headerAt fs.fileHeaders node.inode.toNat offsetField) 8))
  let headerLength := BitVec.ofNat 32 (ofLe (load fs.mem
    (headerAt fs.fileHeaders node.inode.toNat lengthField) 4))
  if offset > headerLength then (0, [])
  else
    let size := if offset + size > headerLength then headerLength - offset else size
    (size, load fs.mem (headerOffset + offset.setWidth 64) size.toInt.toNat)

def initrdReaddir (fs : Initrd) (node : NodeRef) (index : W32) : Option Dirent :=
  if node = .root ∧ index = 0 then some ⟨devName, 0⟩
  else if index - 1 ≥ fs.nrootNodes then none
  else (fs.rootNodes[(index - 1).toNat]?).map fun file => ⟨file.name, file.inode⟩

/-- The loop over the files, by `strcmp` with each name. -/
def findFile (name : List Byte) : Nat → List FsNode → Option NodeRef
  | _, [] => none
  | i, file :: files => if name = file.name then some (.file i) else findFile name (i + 1) files

def initrdFinddir (fs : Initrd) (node : NodeRef) (name : List Byte) : Option NodeRef :=
  if node = .root ∧ name = devName then some .dev
  else findFile name 0 (fs.rootNodes.take fs.nrootNodes.toNat)

/-- A directory node as `init_initrd` fills it in. -/
def directoryNode (name : List Byte) : FsNode where
  name := name
  flags := fsDirectory
  length := 0
  inode := 0
  read := false
  readdir := true
  finddir := true

/-- One turn of the loop over the files. A name that nowhere ends gives no outcome. -/
def initFile (addr fileHeaders : W64) (i : Nat) (mem : ByteMemory) : Option (ByteMemory × FsNode) :=
  let offset := ofLe (load mem (headerAt fileHeaders i offsetField) 8)
  let mem := store mem (headerAt fileHeaders i offsetField) (le 8 (BitVec.ofNat 64 offset + addr).toNat)
  (cstring mem (headerAt fileHeaders i nameField) (2 ^ 64)).map fun name => (mem, {
    name
    flags := fsFile
    length := BitVec.ofNat 32 (ofLe (load mem (headerAt fileHeaders i lengthField) 4))
    inode := BitVec.ofNat 32 i
    read := true
    readdir := false
    finddir := false })

def initFiles (addr fileHeaders : W64) : Nat → Nat → ByteMemory → Option (ByteMemory × List FsNode)
  | _, 0, mem => some (mem, [])
  | i, count + 1, mem =>
    (initFile addr fileHeaders i mem).bind fun (mem, node) =>
      (initFiles addr fileHeaders (i + 1) count mem).map fun (mem, nodes) => (mem, node :: nodes)

def initInitrd (mem : ByteMemory) (addr : W64) : Option Initrd :=
  let nFiles := BitVec.ofNat 32 (ofLe (load mem addr 4))
  let fileHeaders := addr + 4
  (initFiles addr fileHeaders 0 nFiles.toNat mem).map fun (mem, rootNodes) => {
    mem
    fileHeaders
    initrdRoot := directoryNode initrdName
    initrdDev := directoryNode devName
    rootNodes
    nrootNodes := nFiles }

def fsRead (fs : Initrd) (node : NodeRef) (offset size : W32) : Option (W32 × List Byte) :=
  (fs.node node).map fun file => if file.read then initrdRead fs file offset size else (0, [])

def fsReaddir (fs : Initrd) (node : NodeRef) (index : W32) : Option Dirent :=
  (fs.node node).bind fun dir =>
    if isDirectory dir && dir.readdir then initrdReaddir fs node index else none

def fsFinddir (fs : Initrd) (node : NodeRef) (name : List Byte) : Option NodeRef :=
  (fs.node node).bind fun dir =>
    if isDirectory dir && dir.finddir then initrdFinddir fs node name else none

end Neutrino.Fs
