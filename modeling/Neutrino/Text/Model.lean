import Mathlib.Data.Nat.Digits.Lemmas
import Neutrino.Library.Partial
import Neutrino.Machine.Common

namespace Neutrino.Text

open Library

abbrev Byte := BitVec 8

abbrev Chars := Nat → Byte

/-- An array that starts with `s` and holds zeros behind it. -/
def chars (s : List Byte) : Chars := fun j => s.getD j 0#8

def strlenFrom (str : Chars) : (fuel : Nat) → (l : Nat) → Option Nat
  | 0, _ => none
  | fuel + 1, l => if str l = 0#8 then some l else strlenFrom str fuel (l + 1)

/-- `l` is an `int`, which a longer string makes overflow. -/
def strlen (str : Chars) : Option Nat := strlenFrom str (2 ^ 31) 0

-- `ltoa` and its scratch buffer.

abbrev Tbuf := Vector Byte 32

/-- There is no result where an access leaves `tbuf`. -/
abbrev ScratchM := StateT Tbuf Option

def bchars : List Byte :=
  [0x30#8, 0x31#8, 0x32#8, 0x33#8, 0x34#8, 0x35#8, 0x36#8, 0x37#8, 0x38#8, 0x39#8,
    0x41#8, 0x42#8, 0x43#8, 0x44#8, 0x45#8, 0x46#8]

def writeTbuf (pos : Nat) (c : Byte) : ScratchM Unit := fun tbuf =>
  if inside : pos < 32 then some ((), tbuf.set pos c inside) else none

def readTbuf (pos : Nat) : ScratchM Byte := fun tbuf => (tbuf[pos]?).map fun c => (c, tbuf)

/-- The loop that divides by the base, which must not be 0. -/
def ltoaDigits (base : W32) : (fuel : Nat) → (i : W64) → (pos : Nat) → ScratchM Nat
  | 0, _, _ => fun _ => none
  | fuel + 1, i, pos =>
    if i = 0#64 then return pos
    else if base = 0#32 then fun _ => none
    else do
      writeTbuf pos (bchars.getD (i % base.setWidth 64).toNat 0#8)
      ltoaDigits base fuel (i / base.setWidth 64) (pos + 1)

/-- The bytes that are written to `buf`. With a base of at least 2 the first loop ends in 64
    iterations, with a base of 1 it never does. -/
def ltoa (i : W64) (base : W32) : ScratchM (List Byte) :=
  if i = 0#64 ∨ base > 16#32 then return [0x30#8, 0#8]
  else do
    let top ← ltoaDigits base 65 i 0
    let digits ← (List.range top).mapM fun opos => readTbuf (top - 1 - opos)
    return digits ++ [0#8]

def ltoaS (i : W64) (base : W32) : ScratchM (List Byte) :=
  if base > 16#32 then return []
  else if i.toInt < 0 then do
    let rest ← ltoa (-i) base
    return 0x2d#8 :: rest
  else ltoa i base

-- `vstrf`.

/-- The bytes that `vstrf` has written through `buffer_p`, and how many arguments it has taken. -/
structure Printer where
  tbuf : Tbuf
  buffer : List Byte
  taken : Nat

abbrev PrintM := StateT Printer Option

def scratch {α : Type} (code : ScratchM α) : PrintM α := fun p =>
  (code p.tbuf).map fun done => (done.1, { p with tbuf := done.2 })

def put (c : Byte) : PrintM Unit := fun p => some ((), { p with buffer := p.buffer ++ [c] })

/-- The characters of a string, up to its terminator. -/
def putString (str : Chars) : PrintM Unit := fun p => do
  let length ← strlen str
  some ((), { p with buffer := p.buffer ++ (List.range length).map str })

/-- A conversion into a local array of `size` bytes, all zero before it. -/
def converted (size : Nat) (code : ScratchM (List Byte)) : PrintM Chars := do
  let written ← scratch code
  if written.length ≤ size then return chars written else fun _ => none

/-- The pointers that `vstrf` returns. -/
inductive Returned
  | null
  | one
  | buffer
  deriving DecidableEq, Repr

section Vstrf

-- `memory` is what the pointers among the arguments lead to.
variable (memory : W64 → Chars) (args : Nat → W64)

def vaArg : PrintM W64 := fun p => some (args p.taken, { p with taken := p.taken + 1 })

/-- What follows a `%`. The result says whether the directive is known. -/
def directive (c : Byte) : PrintM Bool :=
  if c = 0x63#8 then do
    let c ← vaArg args
    putString (memory c)
    return true
  else if c = 0x75#8 then do
    let c ← vaArg args
    let str ← converted 32 (ltoa c 10#32)
    putString str
    return true
  else if c = 0x64#8 ∨ c = 0x69#8 then do
    let c ← vaArg args
    let str ← converted 32 (ltoaS c 10#32)
    putString str
    return true
  else if c = 0x58#8 ∨ c = 0x78#8 then do
    let c ← vaArg args
    let str ← converted 32 (ltoa c 16#32)
    put 0x30#8
    put 0x78#8
    putString str
    return true
  else if c = 0x62#8 then do
    let c ← vaArg args
    let str ← converted 128 (ltoa c 2#32)
    putString str
    return true
  else return false

/-- The index `i` is an `unsigned int`. -/
def vstrfLoop (istr : Chars) : (fuel : Nat) → (i : W32) → PrintM Returned
  | 0, _ => fun _ => none
  | fuel + 1, i =>
    if istr i.toNat = 0#8 then do
      put 0#8
      return .buffer
    else if istr i.toNat = 0x25#8 then do
      let known ← directive memory args (istr (i + 1#32).toNat)
      if known then vstrfLoop istr fuel (i + 2#32) else return .one
    else do
      put (istr i.toNat)
      vstrfLoop istr fuel (i + 1#32)

def vstrf (fuel : Nat) : Option Chars → PrintM Returned
  | none => return .null
  | some istr => vstrfLoop memory args istr fuel 0#32

end Vstrf

-- `klog` and `sys_log`.

/-- What is passed to the output helper. -/
inductive Passed
  | literal (s : List Byte)
  | buffer
  | address (a : W64)
  deriving DecidableEq

/-- What a call of `klog` has done: its output, the bytes written to its buffer, the arguments
    taken and the pointers passed to the helper. -/
structure Logged where
  output : List Byte
  buffer : List Byte
  taken : Nat
  passed : List Passed

section Logging

variable (memory : W64 → Chars)

def serialWriteString (message : Chars) : Option (List Byte) := do
  let length ← strlen message
  return (List.range length).map message

/-- The array `buf` of `klog` is all zero before `vstrf` writes to it. -/
def helper (buf : List Byte) : Passed → Option (List Byte)
  | .literal s => serialWriteString (chars s)
  | .buffer => serialWriteString (chars buf)
  | .address a => serialWriteString (memory a)

def Returned.passed : Returned → Passed
  | .null => .address 0#64
  | .one => .address 1#64
  | .buffer => .buffer

def logTag : List Byte := [0x5b#8, 0x4c#8, 0x4f#8, 0x47#8, 0x5d#8, 0x20#8]

def newline : List Byte := [0x0a#8]

def klog (fuel : Nat) (args : Nat → W64) (tbuf : Tbuf) (message : Option Chars) : Option Logged := do
  let first ← helper memory [] (.literal logTag)
  let (result, printer) ← vstrf memory args fuel message ⟨tbuf, [], 0⟩
  let second ← helper memory printer.buffer result.passed
  let third ← helper memory [] (.literal newline)
  return ⟨first ++ second ++ third, printer.buffer, printer.taken, [.literal logTag, result.passed, .literal newline]⟩

/-- No arguments follow the message: `args` is what happens to be where they would stand. -/
def sysLog (fuel : Nat) (args : Nat → W64) (tbuf : Tbuf) :
    Option Chars → Option (SyscallResult × Option Logged)
  | none => some (.invalid, none)
  | some msg => (klog memory fuel args tbuf (some msg)).map fun logged => (.success, some logged)

end Logging

end Neutrino.Text
