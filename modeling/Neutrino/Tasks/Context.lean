import Neutrino.Machine.Word

namespace Neutrino.Tasks

/-- `struct __interrupt_stack`, which is also `Registers`. -/
structure Registers where
  r15 : W64
  r14 : W64
  r13 : W64
  r12 : W64
  r11 : W64
  r10 : W64
  r9 : W64
  r8 : W64
  rbp : W64
  rdi : W64
  rsi : W64
  rdx : W64
  rcx : W64
  rbx : W64
  rax : W64
  irq : W64
  errorCode : W64
  rip : W64
  cs : W64
  rflags : W64
  rsp : W64
  ss : W64
  deriving DecidableEq, Repr, Inhabited

/-- The vector registers, as the area that `fxsave` or `xsave` fills. -/
abbrev Simd := List (BitVec 8)

structure Context where
  syscallKstack : W64
  syscallUstack : W64
  regs : Registers
  simd : Simd
  deriving DecidableEq, Repr, Inhabited

def processStackSize : W64 := 0x4000#64
def processStackBase : W64 := 0x80000000000#64

def rflagsInterruptEnable : W64 := 1#64 <<< 9
def rflagsReserved1One : W64 := 1#64 <<< 1

/-- `memory_set(&regs, 0, sizeof(Registers))`. -/
def zeroRegisters : Registers :=
  ⟨0, 0, 0, 0, 0, 0, 0, 0, 0, 0, 0, 0, 0, 0, 0, 0, 0, 0, 0, 0, 0, 0⟩

def contextInit (context : Context) (ip sp ksp : W64) (user : Bool) : Context :=
  let regs := { zeroRegisters with rip := ip, rflags := rflagsInterruptEnable ||| rflagsReserved1One }
  let regs :=
    if user then { regs with cs := 0x30#64 ||| 3#64, ss := 0x28#64 ||| 3#64, rbp := processStackBase }
    else { regs with cs := 0x18#64, ss := 0x20#64, rbp := processStackBase }
  { context with regs := { regs with rsp := sp }, syscallKstack := ksp }

def contextSave (context : Context) (regs : Registers) (simd : Simd) : Context :=
  { context with simd := simd, regs := regs }

/-- What `context_load` leaves in the processor: the frame to return through and the vector
    registers. The third effect, the base of `gs`, is the address of the context itself. -/
def contextLoad (context : Context) : Registers × Simd := (context.regs, context.simd)

end Neutrino.Tasks
