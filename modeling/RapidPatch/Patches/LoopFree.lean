import RapidPatch.Hotpatch.Dispatch
import RapidPatch.Patches.MqttLength
import RapidPatch.Vm.Checker
import RapidPatch.Vm.Forward

/-!
The shipped filters without loops.

Each program is run once through its listing, with a case for each jump, and
what comes out is compared with the filter it was compiled from: the
interpreter returns what the source says, for every frame and memory
(`loopFree_exec`).

What the filters do to a call is another matter (`loopFree_verdict`). The one
for `freertos_cve_2018_16603` takes the lengths of the headers away from an
unsigned length, so a packet that is shorter than the first two passes.
`skip_invalid_free` adds an `int` to the operation, and an address with the
highest bit set makes a drop of the redirection. `filter` of `dummy_cve1`
returns its operation in the place of the return code, so it drops nothing.
-/

namespace RapidPatch.Patches

open RapidPatch.Support RapidPatch.Hotpatch RapidPatch.Vm

/-! ### The programs -/

/-- `atest_cve`, which is also the dynamic `test_cve`. -/
def atestCve : List (BitVec 8) :=
  [0x61, 0x11, 0x00, 0x00, 0x00, 0x00, 0x00, 0x00, 0x07, 0x01, 0x00, 0x00, 0x2f, 0xf8, 0xff, 0xff,
   0x67, 0x01, 0x00, 0x00, 0x20, 0x00, 0x00, 0x00, 0x77, 0x01, 0x00, 0x00, 0x20, 0x00, 0x00, 0x00,
   0xb7, 0x00, 0x00, 0x00, 0x01, 0x00, 0x00, 0x00, 0xb7, 0x02, 0x00, 0x00, 0xb8, 0x0b, 0x00, 0x00,
   0x2d, 0x12, 0x01, 0x00, 0x00, 0x00, 0x00, 0x00, 0xb7, 0x00, 0x00, 0x00, 0x00, 0x00, 0x00, 0x00,
   0x67, 0x00, 0x00, 0x00, 0x20, 0x00, 0x00, 0x00, 0x95, 0x00, 0x00, 0x00, 0x00, 0x00, 0x00, 0x00]

/-- `zephyr_cve_2020_10063`, a dynamic and a fixed patch. -/
def zephyrCve10063 : List (BitVec 8) :=
  [0x61, 0x11, 0x04, 0x00, 0x00, 0x00, 0x00, 0x00, 0x07, 0x01, 0x00, 0x00, 0x05, 0x00, 0x00, 0x00,
   0x67, 0x01, 0x00, 0x00, 0x20, 0x00, 0x00, 0x00, 0x77, 0x01, 0x00, 0x00, 0x20, 0x00, 0x00, 0x00,
   0x69, 0x12, 0x00, 0x00, 0x00, 0x00, 0x00, 0x00, 0x18, 0x01, 0x00, 0x00, 0xea, 0xff, 0xff, 0xff,
   0x00, 0x00, 0x00, 0x00, 0x00, 0x00, 0x00, 0x00, 0x25, 0x02, 0x01, 0x00, 0xff, 0xef, 0x00, 0x00,
   0xb7, 0x01, 0x00, 0x00, 0x00, 0x00, 0x00, 0x00, 0xb7, 0x00, 0x00, 0x00, 0x01, 0x00, 0x00, 0x00,
   0x25, 0x02, 0x01, 0x00, 0xff, 0xef, 0x00, 0x00, 0xb7, 0x00, 0x00, 0x00, 0x00, 0x00, 0x00, 0x00,
   0x67, 0x00, 0x00, 0x00, 0x20, 0x00, 0x00, 0x00, 0x4f, 0x10, 0x00, 0x00, 0x00, 0x00, 0x00, 0x00,
   0x95, 0x00, 0x00, 0x00, 0x00, 0x00, 0x00, 0x00]

/-- `zephyr_cve_2020_10021`. -/
def zephyrCve10021 : List (BitVec 8) :=
  [0x61, 0x12, 0x00, 0x00, 0x00, 0x00, 0x00, 0x00, 0x61, 0x11, 0x04, 0x00, 0x00, 0x00, 0x00, 0x00,
   0x61, 0x13, 0x00, 0x00, 0x00, 0x00, 0x00, 0x00, 0xb7, 0x01, 0x00, 0x00, 0x00, 0x00, 0x00, 0x00,
   0x2d, 0x23, 0x01, 0x00, 0x00, 0x00, 0x00, 0x00, 0xb7, 0x01, 0x00, 0x00, 0x7c, 0x97, 0x00, 0x00,
   0xb7, 0x00, 0x00, 0x00, 0x01, 0x00, 0x00, 0x00, 0x3d, 0x32, 0x01, 0x00, 0x00, 0x00, 0x00, 0x00,
   0xb7, 0x00, 0x00, 0x00, 0x00, 0x00, 0x00, 0x00, 0x67, 0x00, 0x00, 0x00, 0x20, 0x00, 0x00, 0x00,
   0x4f, 0x10, 0x00, 0x00, 0x00, 0x00, 0x00, 0x00, 0x95, 0x00, 0x00, 0x00, 0x00, 0x00, 0x00, 0x00]

/-- `AMNESIA33_cve_2020_17443`. -/
def amnesia33Cve17443 : List (BitVec 8) :=
  [0x61, 0x11, 0x00, 0x00, 0x00, 0x00, 0x00, 0x00, 0x69, 0x12, 0x26, 0x00, 0x00, 0x00, 0x00, 0x00,
   0x18, 0x01, 0x00, 0x00, 0xff, 0xff, 0xff, 0xff, 0x00, 0x00, 0x00, 0x00, 0x00, 0x00, 0x00, 0x00,
   0xb7, 0x03, 0x00, 0x00, 0x08, 0x00, 0x00, 0x00, 0x2d, 0x23, 0x01, 0x00, 0x00, 0x00, 0x00, 0x00,
   0xb7, 0x01, 0x00, 0x00, 0x00, 0x00, 0x00, 0x00, 0xb7, 0x00, 0x00, 0x00, 0x01, 0x00, 0x00, 0x00,
   0x2d, 0x23, 0x01, 0x00, 0x00, 0x00, 0x00, 0x00, 0xb7, 0x00, 0x00, 0x00, 0x00, 0x00, 0x00, 0x00,
   0x67, 0x00, 0x00, 0x00, 0x20, 0x00, 0x00, 0x00, 0x4f, 0x10, 0x00, 0x00, 0x00, 0x00, 0x00, 0x00,
   0x95, 0x00, 0x00, 0x00, 0x00, 0x00, 0x00, 0x00]

/-- `zephyr_cve_2020_17443`. -/
def zephyrCve17443 : List (BitVec 8) :=
  [0x61, 0x11, 0x00, 0x00, 0x00, 0x00, 0x00, 0x00, 0x69, 0x11, 0x26, 0x00, 0x00, 0x00, 0x00, 0x00,
   0x18, 0x00, 0x00, 0x00, 0xff, 0xff, 0xff, 0xff, 0x00, 0x00, 0x00, 0x00, 0x01, 0x00, 0x00, 0x00,
   0xb7, 0x02, 0x00, 0x00, 0x08, 0x00, 0x00, 0x00, 0x2d, 0x12, 0x01, 0x00, 0x00, 0x00, 0x00, 0x00,
   0xb7, 0x00, 0x00, 0x00, 0x00, 0x00, 0x00, 0x00, 0x95, 0x00, 0x00, 0x00, 0x00, 0x00, 0x00, 0x00]

/-- `zephyr_cve_2020_10028`. -/
def zephyrCve10028 : List (BitVec 8) :=
  [0x61, 0x11, 0x04, 0x00, 0x00, 0x00, 0x00, 0x00, 0x61, 0x11, 0x04, 0x00, 0x00, 0x00, 0x00, 0x00,
   0x61, 0x12, 0x00, 0x00, 0x00, 0x00, 0x00, 0x00, 0x18, 0x01, 0x00, 0x00, 0xea, 0xff, 0xff, 0xff,
   0x00, 0x00, 0x00, 0x00, 0x00, 0x00, 0x00, 0x00, 0x15, 0x02, 0x01, 0x00, 0x00, 0x00, 0x00, 0x00,
   0xb7, 0x01, 0x00, 0x00, 0x00, 0x00, 0x00, 0x00, 0xb7, 0x00, 0x00, 0x00, 0x01, 0x00, 0x00, 0x00,
   0x15, 0x02, 0x01, 0x00, 0x00, 0x00, 0x00, 0x00, 0xb7, 0x00, 0x00, 0x00, 0x00, 0x00, 0x00, 0x00,
   0x67, 0x00, 0x00, 0x00, 0x20, 0x00, 0x00, 0x00, 0x4f, 0x10, 0x00, 0x00, 0x00, 0x00, 0x00, 0x00,
   0x95, 0x00, 0x00, 0x00, 0x00, 0x00, 0x00, 0x00]

/-- `freertos_cve_2018_16603` and `zephyr_cve_2018_16603`. -/
def freertosCve16603 : List (BitVec 8) :=
  [0x61, 0x11, 0x00, 0x00, 0x00, 0x00, 0x00, 0x00, 0x79, 0x11, 0x1c, 0x00, 0x00, 0x00, 0x00, 0x00,
   0x07, 0x01, 0x00, 0x00, 0xde, 0xff, 0xff, 0xff, 0xb7, 0x00, 0x00, 0x00, 0x01, 0x00, 0x00, 0x00,
   0xb7, 0x02, 0x00, 0x00, 0x14, 0x00, 0x00, 0x00, 0x2d, 0x12, 0x01, 0x00, 0x00, 0x00, 0x00, 0x00,
   0xb7, 0x00, 0x00, 0x00, 0x00, 0x00, 0x00, 0x00, 0x67, 0x00, 0x00, 0x00, 0x20, 0x00, 0x00, 0x00,
   0x95, 0x00, 0x00, 0x00, 0x00, 0x00, 0x00, 0x00]

/-- `zephyr_cve_2020_10024`. -/
def zephyrCve10024 : List (BitVec 8) :=
  [0xb7, 0x02, 0x00, 0x00, 0x00, 0x00, 0x00, 0x00, 0x71, 0x13, 0x1f, 0x00, 0x00, 0x00, 0x00, 0x00,
   0x57, 0x03, 0x00, 0x00, 0x20, 0x00, 0x00, 0x00, 0xb7, 0x00, 0x00, 0x00, 0x00, 0x00, 0x00, 0x00,
   0x15, 0x03, 0x06, 0x00, 0x00, 0x00, 0x00, 0x00, 0x18, 0x02, 0x00, 0x00, 0x00, 0x00, 0x00, 0x00,
   0x00, 0x00, 0x00, 0x00, 0x02, 0x00, 0x00, 0x00, 0x61, 0x10, 0x18, 0x00, 0x00, 0x00, 0x00, 0x00,
   0x07, 0x00, 0x00, 0x00, 0x04, 0x00, 0x00, 0x00, 0x67, 0x00, 0x00, 0x00, 0x20, 0x00, 0x00, 0x00,
   0x77, 0x00, 0x00, 0x00, 0x20, 0x00, 0x00, 0x00, 0x4f, 0x20, 0x00, 0x00, 0x00, 0x00, 0x00, 0x00,
   0x95, 0x00, 0x00, 0x00, 0x00, 0x00, 0x00, 0x00]

/-- `mbedtls_2017_2784`. -/
def mbedtls2784 : List (BitVec 8) :=
  [0x61, 0x10, 0x18, 0x00, 0x00, 0x00, 0x00, 0x00, 0x67, 0x00, 0x00, 0x00, 0x20, 0x00, 0x00, 0x00,
   0x18, 0x01, 0x00, 0x00, 0x00, 0x00, 0x00, 0x00, 0x00, 0x00, 0x00, 0x00, 0x02, 0x00, 0x00, 0x00,
   0x0f, 0x10, 0x00, 0x00, 0x00, 0x00, 0x00, 0x00, 0xc7, 0x00, 0x00, 0x00, 0x20, 0x00, 0x00, 0x00,
   0x0f, 0x10, 0x00, 0x00, 0x00, 0x00, 0x00, 0x00, 0x95, 0x00, 0x00, 0x00, 0x00, 0x00, 0x00, 0x00]

def dummyCve1 : List (BitVec 8) :=
  [0x61, 0x11, 0x04, 0x00, 0x00, 0x00, 0x00, 0x00, 0x67, 0x01, 0x00, 0x00, 0x20, 0x00, 0x00, 0x00,
   0xc7, 0x01, 0x00, 0x00, 0x20, 0x00, 0x00, 0x00, 0xb7, 0x00, 0x00, 0x00, 0x01, 0x00, 0x00, 0x00,
   0x65, 0x01, 0x01, 0x00, 0x13, 0x00, 0x00, 0x00, 0xb7, 0x00, 0x00, 0x00, 0x00, 0x00, 0x00, 0x00,
   0x95, 0x00, 0x00, 0x00, 0x00, 0x00, 0x00, 0x00]

/-- `dummy_bug`, which is also the fixed `dummy_bug_function`. -/
def dummyBug : List (BitVec 8) :=
  [0xb7, 0x00, 0x00, 0x00, 0x00, 0x00, 0x00, 0x00, 0x95, 0x00, 0x00, 0x00, 0x00, 0x00, 0x00, 0x00]

def atestCveListing : List Inst :=
  [load .w 1 1 0, aluImm .add 1 0xfffff82f, aluImm .lsh 1 0x20, aluImm .rsh 1 0x20, aluImm .mov 0 1,
   aluImm .mov 2 0xbb8, branchReg .jgt 2 1 1, aluImm .mov 0 0, aluImm .lsh 0 0x20, exitInst]

def zephyrCve10063Listing : List Inst :=
  [load .w 1 1 4, aluImm .add 1 5, aluImm .lsh 1 0x20, aluImm .rsh 1 0x20, load .h 2 1 0,
   loadWide 1 0xffffffea, wideHigh 0, branchImm .jgt 2 0xefff 1, aluImm .mov 1 0, aluImm .mov 0 1,
   branchImm .jgt 2 0xefff 1, aluImm .mov 0 0, aluImm .lsh 0 0x20, aluReg .or 0 1, exitInst]

def zephyrCve10021Listing : List Inst :=
  [load .w 2 1 0, load .w 1 1 4, load .w 3 1 0, aluImm .mov 1 0, branchReg .jgt 3 2 1,
   aluImm .mov 1 0x977c, aluImm .mov 0 1, branchReg .jge 2 3 1, aluImm .mov 0 0, aluImm .lsh 0 0x20,
   aluReg .or 0 1, exitInst]

def amnesia33Cve17443Listing : List Inst :=
  [load .w 1 1 0, load .h 2 1 38, loadWide 1 0xffffffff, wideHigh 0, aluImm .mov 3 8,
   branchReg .jgt 3 2 1, aluImm .mov 1 0, aluImm .mov 0 1, branchReg .jgt 3 2 1, aluImm .mov 0 0,
   aluImm .lsh 0 0x20, aluReg .or 0 1, exitInst]

def zephyrCve17443Listing : List Inst :=
  [load .w 1 1 0, load .h 1 1 38, loadWide 0 0xffffffff, wideHigh 1, aluImm .mov 2 8,
   branchReg .jgt 2 1 1, aluImm .mov 0 0, exitInst]

def zephyrCve10028Listing : List Inst :=
  [load .w 1 1 4, load .w 1 1 4, load .w 2 1 0, loadWide 1 0xffffffea, wideHigh 0,
   branchImm .jeq 2 0 1, aluImm .mov 1 0, aluImm .mov 0 1, branchImm .jeq 2 0 1, aluImm .mov 0 0,
   aluImm .lsh 0 0x20, aluReg .or 0 1, exitInst]

def freertosCve16603Listing : List Inst :=
  [load .w 1 1 0, load .dw 1 1 28, aluImm .add 1 0xffffffde, aluImm .mov 0 1, aluImm .mov 2 0x14,
   branchReg .jgt 2 1 1, aluImm .mov 0 0, aluImm .lsh 0 0x20, exitInst]

def zephyrCve10024Listing : List Inst :=
  [aluImm .mov 2 0, load .b 3 1 31, aluImm .and 3 0x20, aluImm .mov 0 0, branchImm .jeq 3 0 6,
   loadWide 2 0, wideHigh 2, load .w 0 1 24, aluImm .add 0 4, aluImm .lsh 0 0x20,
   aluImm .rsh 0 0x20, aluReg .or 0 2, exitInst]

def mbedtls2784Listing : List Inst :=
  [load .w 0 1 24, aluImm .lsh 0 0x20, loadWide 1 0, wideHigh 2, aluReg .add 0 1,
   aluImm .arsh 0 0x20, aluReg .add 0 1, exitInst]

def dummyCve1Listing : List Inst :=
  [load .w 1 1 4, aluImm .lsh 1 0x20, aluImm .arsh 1 0x20, aluImm .mov 0 1,
   branchImm .jsgt 1 0x13 1, aluImm .mov 0 0, exitInst]

def dummyBugListing : List Inst :=
  [aluImm .mov 0 0, exitInst]

/-! ### The sources -/

/-- The registers saved at an address: `stack_frame` of `ebpf_helper.h` is the
`stack_context` of the handlers. -/
def stackContextAt (mem : Mem) (ctx : BitVec 32) : StackContext where
  r0 := load32 mem ctx
  r1 := load32 mem (ctx + 4)
  r2 := load32 mem (ctx + 8)
  r3 := load32 mem (ctx + 12)
  r12 := load32 mem (ctx + 16)
  lr := load32 mem (ctx + 20)
  pc := load32 mem (ctx + 24)
  xpsr := load32 mem (ctx + 28)

/-- The halfword at `a`. -/
def load16 (m : Mem) (a : BitVec 32) : BitVec 16 := BitVec.ofNat 16 (loadLE m a 2)

/-- The doubleword at `a`. -/
def load64 (m : Mem) (a : BitVec 32) : BitVec 64 := BitVec.ofNat 64 (loadLE m a 8)

/-- `fix_bug` of `atest_cve.ebpf.c`. -/
def fixBug (frame : StackContext) : BitVec 64 :=
  let val := frame.r0.toInt
  if val ≤ 5000 ∧ val > 2000 then setReturn 1 0 else setReturn 0 0

/-- `filter` of `zephyr_cve_2020_10063.ebpf.c`. -/
def filter10063 (mem : Mem) (frame : StackContext) : BitVec 64 :=
  let len := (load16 mem (frame.r1 + 5)).setWidth 32
  if len + 0xfff ≥ 0xffff#32 then setReturn 1 ((-22 : BitVec 32).setWidth 64) else setReturn 0 0

/-- `filter` of `zephyr_cve_2020_10021.ebpf.c`. -/
def filter10021 (mem : Mem) (frame : StackContext) : BitVec 64 :=
  let target := frame.r0
  let memSize := load32 mem frame.r1
  if target ≥ memSize then setReturn 1 0x977c else setReturn 0 0

/-- `filter` of `AMNESIA33_cve_2020_17443.ebpf.c`. -/
def filter17443 (mem : Mem) (frame : StackContext) : BitVec 64 :=
  let transportLen := load16 mem (frame.r0 + 38)
  if transportLen < 8 then setReturn 1 ((-1 : BitVec 32).setWidth 64) else setReturn 0 0

/-- `filter` of `zephyr_cve_2020_10028.ebpf.c`. Its `gpio_enable_callback_ptr` is
read from the first entry of the table of functions, not from the fifth. -/
def filter10028 (mem : Mem) (frame : StackContext) : BitVec 64 :=
  let gpioDriverApiPtr := load32 mem (frame.r1 + 4)
  let gpioEnableCallbackPtr := load32 mem gpioDriverApiPtr
  if gpioEnableCallbackPtr = 0 then setReturn 1 ((-22 : BitVec 32).setWidth 64) else setReturn 0 0

/-- `filter` of `freertos_cve_2018_16603.ebpf.c`. -/
def filter16603 (mem : Mem) (frame : StackContext) : BitVec 64 :=
  let xDataLength := load64 mem (frame.r0 + 28)
  let tcpLength := xDataLength - 14 - 20
  if tcpLength < 20 then setReturn 1 0 else setReturn 0 0

/-- `filter` of `zephyr_cve_2020_10024.ebpf.c`. -/
def filter10024 (frame : StackContext) : BitVec 64 :=
  let cFlag := frame.xpsr &&& 0x20000000
  if cFlag ≠ 0 then setReturn 2 ((frame.pc + 4).setWidth 64) else setReturn 0 0

/-- `skip_invalid_free` of `mbedtls_2017_2784.ebpf.c`. -/
def skipInvalidFree (frame : StackContext) : BitVec 64 :=
  let retAddr := frame.pc + 2
  setReturn 2 (retAddr.signExtend 64)

/-- `filter` of `dummy_cve1.ebpf.c`, whose argument is a pointer to `Args`. It
returns `FILTER_DROP` without `set_return`. -/
def filterDummyCve1 (mem : Mem) (args : BitVec 32) : BitVec 64 :=
  let len := (load32 mem (args + 4)).toInt
  if len ≥ 20 then 1 else 0

/-- `filter` of `dummy_bug.ebpf.c`. -/
def filterDummyBug : BitVec 64 := setReturn 0 0

inductive LoopFree
  | atestCve
  | zephyrCve10063
  | zephyrCve10021
  | amnesia33Cve17443
  | zephyrCve17443
  | zephyrCve10028
  | freertosCve16603
  | zephyrCve10024
  | mbedtls2784
  | dummyCve1
  | dummyBug
  deriving DecidableEq

namespace LoopFree

def code : LoopFree → List (BitVec 8)
  | atestCve => Patches.atestCve
  | zephyrCve10063 => Patches.zephyrCve10063
  | zephyrCve10021 => Patches.zephyrCve10021
  | amnesia33Cve17443 => Patches.amnesia33Cve17443
  | zephyrCve17443 => Patches.zephyrCve17443
  | zephyrCve10028 => Patches.zephyrCve10028
  | freertosCve16603 => Patches.freertosCve16603
  | zephyrCve10024 => Patches.zephyrCve10024
  | mbedtls2784 => Patches.mbedtls2784
  | dummyCve1 => Patches.dummyCve1
  | dummyBug => Patches.dummyBug

def listing : LoopFree → List Inst
  | atestCve => atestCveListing
  | zephyrCve10063 => zephyrCve10063Listing
  | zephyrCve10021 => zephyrCve10021Listing
  | amnesia33Cve17443 => amnesia33Cve17443Listing
  | zephyrCve17443 => zephyrCve17443Listing
  | zephyrCve10028 => zephyrCve10028Listing
  | freertosCve16603 => freertosCve16603Listing
  | zephyrCve10024 => zephyrCve10024Listing
  | mbedtls2784 => mbedtls2784Listing
  | dummyCve1 => dummyCve1Listing
  | dummyBug => dummyBugListing

theorem disassemble_code (p : LoopFree) : disassemble p.code = p.listing := by
  cases p <;> rfl

theorem length_listing (p : LoopFree) : p.listing.length ≤ 15 := by
  cases p <;> decide

/-- What the source of a program returns for a memory and the pointer it is
given. -/
def source (mem : Mem) (ctx : BitVec 32) : LoopFree → BitVec 64
  | atestCve => fixBug (stackContextAt mem ctx)
  | zephyrCve10063 => filter10063 mem (stackContextAt mem ctx)
  | zephyrCve10021 => filter10021 mem (stackContextAt mem ctx)
  | amnesia33Cve17443 | zephyrCve17443 => filter17443 mem (stackContextAt mem ctx)
  | zephyrCve10028 => filter10028 mem (stackContextAt mem ctx)
  | freertosCve16603 => filter16603 mem (stackContextAt mem ctx)
  | zephyrCve10024 => filter10024 (stackContextAt mem ctx)
  | mbedtls2784 => skipInvalidFree (stackContextAt mem ctx)
  | dummyCve1 => filterDummyCve1 mem ctx
  | dummyBug => filterDummyBug

end LoopFree

/-! ### What the programs compute -/

theorem ofNat_loadLE_half (m : Mem) (a : BitVec 32) :
    BitVec.ofNat 64 (loadLE m a Size.h.bytes) = (load16 m a).setWidth 64 := by
  apply BitVec.eq_of_toNat_eq
  have hlt := loadLE_lt m a 2
  rw [BitVec.toNat_setWidth, load16, BitVec.toNat_ofNat, BitVec.toNat_ofNat]
  show loadLE m a 2 % 2 ^ 64 = loadLE m a 2 % 2 ^ 16 % 2 ^ 64
  omega

theorem and_flag (x : BitVec 32) : x &&& 0x20000000 = 0 ↔ x.toNat / 2 ^ 29 % 2 = 0 := by
  have hpow : (0x20000000 : BitVec 32) = BitVec.twoPow 32 29 := rfl
  have hne : BitVec.twoPow 32 29 ≠ 0 := by decide
  rw [hpow, BitVec.and_twoPow, BitVec.getLsbD, Nat.testBit_eq_decide_div_mod_eq]
  by_cases hone : x.toNat / 2 ^ 29 % 2 = 1
  · rw [decide_eq_true hone, if_pos rfl]
    exact iff_of_false hne (by omega)
  · rw [decide_eq_false hone, if_neg Bool.false_ne_true]
    exact iff_of_true rfl (by omega)

theorem testFlag (m : Mem) (a : BitVec 32) :
    (m (a + 1 + 1 + 1)).setWidth 64 &&& 32#64 = 0 ↔ load32 m a &&& 0x20000000 = 0 := by
  have hbyte : ∀ x : BitVec 8, x.setWidth 64 &&& 32#64 = 0 ↔ x.toNat / 32 % 2 = 0 := by decide
  have hword : (load32 m a).toNat = loadLE m a 4 := by
    rw [load32, BitVec.toNat_ofNat]
    exact Nat.mod_eq_of_lt (loadLE_lt m a 4)
  rw [hbyte, and_flag, hword]
  have h0 := (m a).isLt
  have h1 := (m (a + 1)).isLt
  have h2 := (m (a + 1 + 1)).isLt
  simp only [loadLE]
  omega

theorem ofNat_loadLE_doubleword (m : Mem) (a : BitVec 32) :
    BitVec.ofNat 64 (loadLE m a Size.dw.bytes) = load64 m a := rfl

theorem some_ite {α : Type} {P Q : Prop} [Decidable P] [Decidable Q] (h : P ↔ Q) (x y : α) :
    (if P then some x else some y) = some (if Q then x else y) := by
  rw [apply_ite some]
  exact if_congr h rfl rfl

theorem setReturn_eq_or (op : BitVec 64) (x : BitVec 32) :
    setReturn op (x.setWidth 64) = x.setWidth 64 ||| op <<< 32 := by
  rw [setReturn, BitVec.add_comm]
  refine BitVec.add_eq_or_of_and_eq_zero _ _ ?_
  ext i hi
  simp only [BitVec.getElem_and, BitVec.getElem_setWidth, BitVec.getElem_shiftLeft,
    BitVec.getElem_zero]
  by_cases h32 : i < 32
  · simp [h32]
  · simp [h32, BitVec.getLsbD_of_ge x i (by omega)]

theorem ult_eight (x : BitVec 16) : (x.setWidth 64).ult 8#64 = true ↔ x < 8 := by
  rw [BitVec.ult, decide_eq_true_iff]
  bv_omega

section

variable {c : Call} {d : Data} {ctx : BitVec 32} (h : d.reg 1#4 = ctx.setWidth 64)

include h

theorem atestCve_returns :
    evalForward c.withoutChecks (fun d => d.reg 0) atestCveListing 0 d =
      some (fixBug (stackContextAt d.mem ctx)) := by
  have hrun : evalForward c.withoutChecks (fun d => d.reg 0) atestCveListing 0 d =
      if ((load32 d.mem ctx + 0xfffff82f#32).setWidth 64).ult 3000#64 then some (setReturn 1 0)
      else some (setReturn 0 0) := by
    simp [atestCveListing, alu64, jmpTaken, h, ofNat_loadLE_word, setWidth_add_setWidth, setReturn]
  have hguard : ((load32 d.mem ctx + 0xfffff82f#32).setWidth 64).ult 3000#64 = true ↔
      (load32 d.mem ctx).toInt ≤ 5000 ∧ (load32 d.mem ctx).toInt > 2000 := by
    rw [BitVec.ult, decide_eq_true_iff, BitVec.toInt_eq_toNat_cond]
    bv_omega
  rw [hrun, some_ite hguard]
  rfl

theorem zephyrCve10063_returns :
    evalForward c.withoutChecks (fun d => d.reg 0) zephyrCve10063Listing 0 d =
      some (filter10063 d.mem (stackContextAt d.mem ctx)) := by
  have hrun : evalForward c.withoutChecks (fun d => d.reg 0) zephyrCve10063Listing 0 d =
      if (0xefff#64).ult ((load16 d.mem (load32 d.mem (ctx + 4) + 5)).setWidth 64) then
        some (setReturn 1 ((-22 : BitVec 32).setWidth 64))
      else some (setReturn 0 0) := by
    simp [zephyrCve10063Listing, alu64, jmpTaken, h, ofNat_loadLE_word, ofNat_loadLE_half,
      setWidth_add_setWidth, setReturn]
    split <;> rfl
  have hguard : (0xefff#64).ult ((load16 d.mem (load32 d.mem (ctx + 4) + 5)).setWidth 64) = true ↔
      (load16 d.mem (load32 d.mem (ctx + 4) + 5)).setWidth 32 + 0xfff ≥ 0xffff#32 := by
    rw [BitVec.ult, decide_eq_true_iff]
    bv_omega
  rw [hrun, some_ite hguard]
  rfl

theorem zephyrCve10021_returns :
    evalForward c.withoutChecks (fun d => d.reg 0) zephyrCve10021Listing 0 d =
      some (filter10021 d.mem (stackContextAt d.mem ctx)) := by
  have hrun : evalForward c.withoutChecks (fun d => d.reg 0) zephyrCve10021Listing 0 d =
      if ((load32 d.mem (load32 d.mem (ctx + 4))).setWidth 64).ule
          ((load32 d.mem ctx).setWidth 64) then some (setReturn 1 0x977c)
      else some (setReturn 0 0) := by
    simp [zephyrCve10021Listing, alu64, jmpTaken, h, ofNat_loadLE_word, setWidth_add_setWidth,
      setReturn]
    rw [BitVec.ule_eq_not_ult]
    cases ((load32 d.mem ctx).setWidth 64).ult
      ((load32 d.mem (load32 d.mem (ctx + 4#32))).setWidth 64) <;> rfl
  have hguard : ((load32 d.mem (load32 d.mem (ctx + 4))).setWidth 64).ule
      ((load32 d.mem ctx).setWidth 64) = true ↔
      load32 d.mem ctx ≥ load32 d.mem (load32 d.mem (ctx + 4)) := by
    rw [BitVec.ule, decide_eq_true_iff]
    bv_omega
  rw [hrun, some_ite hguard]
  rfl

theorem amnesia33Cve17443_returns :
    evalForward c.withoutChecks (fun d => d.reg 0) amnesia33Cve17443Listing 0 d =
      some (filter17443 d.mem (stackContextAt d.mem ctx)) := by
  have hrun : evalForward c.withoutChecks (fun d => d.reg 0) amnesia33Cve17443Listing 0 d =
      if ((load16 d.mem (load32 d.mem ctx + 38)).setWidth 64).ult 8#64 then
        some (setReturn 1 ((-1 : BitVec 32).setWidth 64))
      else some (setReturn 0 0) := by
    simp [amnesia33Cve17443Listing, alu64, jmpTaken, h, ofNat_loadLE_word, ofNat_loadLE_half,
      setWidth_add_setWidth, setReturn]
    split <;> rfl
  rw [hrun, some_ite (ult_eight _)]
  rfl

theorem zephyrCve17443_returns :
    evalForward c.withoutChecks (fun d => d.reg 0) zephyrCve17443Listing 0 d =
      some (filter17443 d.mem (stackContextAt d.mem ctx)) := by
  have hrun : evalForward c.withoutChecks (fun d => d.reg 0) zephyrCve17443Listing 0 d =
      if ((load16 d.mem (load32 d.mem ctx + 38)).setWidth 64).ult 8#64 then
        some (setReturn 1 ((-1 : BitVec 32).setWidth 64))
      else some (setReturn 0 0) := by
    simp [zephyrCve17443Listing, alu64, jmpTaken, h, ofNat_loadLE_word, ofNat_loadLE_half,
      setWidth_add_setWidth, setReturn]
  rw [hrun, some_ite (ult_eight _)]
  rfl

theorem zephyrCve10028_returns :
    evalForward c.withoutChecks (fun d => d.reg 0) zephyrCve10028Listing 0 d =
      some (filter10028 d.mem (stackContextAt d.mem ctx)) := by
  have hrun : evalForward c.withoutChecks (fun d => d.reg 0) zephyrCve10028Listing 0 d =
      if (load32 d.mem (load32 d.mem (load32 d.mem (ctx + 4) + 4))).setWidth 64 = 0#64 then
        some (setReturn 1 ((-22 : BitVec 32).setWidth 64))
      else some (setReturn 0 0) := by
    simp [zephyrCve10028Listing, alu64, jmpTaken, h, ofNat_loadLE_word, setWidth_add_setWidth,
      setReturn]
    split <;> rfl
  have hguard : (load32 d.mem (load32 d.mem (load32 d.mem (ctx + 4) + 4))).setWidth 64 = 0#64 ↔
      load32 d.mem (load32 d.mem (load32 d.mem (ctx + 4) + 4)) = 0 := by
    bv_omega
  rw [hrun, some_ite hguard]
  rfl

theorem freertosCve16603_returns :
    evalForward c.withoutChecks (fun d => d.reg 0) freertosCve16603Listing 0 d =
      some (filter16603 d.mem (stackContextAt d.mem ctx)) := by
  have hrun : evalForward c.withoutChecks (fun d => d.reg 0) freertosCve16603Listing 0 d =
      if (load64 d.mem (load32 d.mem ctx + 28) + 0xffffffffffffffde#64).ult 20#64 then
        some (setReturn 1 0)
      else some (setReturn 0 0) := by
    simp [freertosCve16603Listing, alu64, jmpTaken, h, ofNat_loadLE_word, setWidth_add_setWidth,
      setReturn, ofNat_loadLE_doubleword]
  have hguard : (load64 d.mem (load32 d.mem ctx + 28) + 0xffffffffffffffde#64).ult 20#64 = true ↔
      load64 d.mem (load32 d.mem ctx + 28) - 14 - 20 < 20 := by
    rw [BitVec.ult, decide_eq_true_iff]
    bv_omega
  rw [hrun, some_ite hguard]
  rfl

theorem zephyrCve10024_returns :
    evalForward c.withoutChecks (fun d => d.reg 0) zephyrCve10024Listing 0 d =
      some (filter10024 (stackContextAt d.mem ctx)) := by
  have hrun : evalForward c.withoutChecks (fun d => d.reg 0) zephyrCve10024Listing 0 d =
      if (d.mem (ctx + 31)).setWidth 64 &&& 32#64 = 0 then some (setReturn 0 0)
      else some ((load32 d.mem (ctx + 24) + 4).setWidth 64 ||| 0x200000000#64) := by
    simp [zephyrCve10024Listing, alu64, jmpTaken, h, ofNat_loadLE_word, ofNat_loadLE_byte,
      setWidth_add_setWidth, setReturn]
  have hguard := testFlag d.mem (ctx + 28)
  have hlast : ctx + 28 + 1 + 1 + 1 = ctx + 31 := by bv_omega
  rw [hlast] at hguard
  have hret := setReturn_eq_or 2 (load32 d.mem (ctx + 24) + 4)
  rw [hrun, some_ite hguard]
  rw [show (2 : BitVec 64) <<< 32 = 0x200000000#64 from rfl] at hret
  rw [← hret]
  exact congrArg some (ite_not _ _ _).symm

theorem mbedtls2784_returns :
    evalForward c.withoutChecks (fun d => d.reg 0) mbedtls2784Listing 0 d =
      some (skipInvalidFree (stackContextAt d.mem ctx)) := by
  have hrun : evalForward c.withoutChecks (fun d => d.reg 0) mbedtls2784Listing 0 d =
      some (((load32 d.mem (ctx + 24)).setWidth 64 <<< 32 + 2#64 <<< 32).sshiftRight 32 +
        2#64 <<< 32) := by
    simp [mbedtls2784Listing, alu64, h, ofNat_loadLE_word, setWidth_add_setWidth]
  have hshift := sshiftRight_shiftLeft (w := 64) (k := 32)
    ((load32 d.mem (ctx + 24)).setWidth 64 + 2#64) (by decide) (by decide)
  rw [setWidth_add_setWidth _ _ (by decide), BitVec.shiftLeft_add_distrib] at hshift
  rw [hrun, hshift, BitVec.add_comm]
  rfl

theorem dummyCve1_returns :
    evalForward c.withoutChecks (fun d => d.reg 0) dummyCve1Listing 0 d =
      some (filterDummyCve1 d.mem ctx) := by
  have hrun : evalForward c.withoutChecks (fun d => d.reg 0) dummyCve1Listing 0 d =
      if (19#64).slt ((load32 d.mem (ctx + 4)).signExtend 64) then some 1 else some 0 := by
    simp [dummyCve1Listing, alu64, jmpTaken, h, ofNat_loadLE_word, setWidth_add_setWidth]
  have hguard : (19#64).slt ((load32 d.mem (ctx + 4)).signExtend 64) = true ↔
      (load32 d.mem (ctx + 4)).toInt ≥ 20 := by
    rw [BitVec.slt, decide_eq_true_iff, BitVec.toInt_signExtend_of_le (by decide)]
    exact Iff.rfl
  rw [hrun, some_ite hguard]
  rfl

end

/-- A shipped program returns what its source returns. -/
theorem LoopFree.returns {c : Call} {d : Data} {ctx : BitVec 32} (p : LoopFree)
    (h : d.reg 1#4 = ctx.setWidth 64) :
    evalForward c.withoutChecks (fun d => d.reg 0) p.listing 0 d = some (p.source d.mem ctx) := by
  cases p <;> rw [LoopFree.listing, LoopFree.source]
  case atestCve => exact atestCve_returns h
  case zephyrCve10063 => exact zephyrCve10063_returns h
  case zephyrCve10021 => exact zephyrCve10021_returns h
  case amnesia33Cve17443 => exact amnesia33Cve17443_returns h
  case zephyrCve17443 => exact zephyrCve17443_returns h
  case zephyrCve10028 => exact zephyrCve10028_returns h
  case freertosCve16603 => exact freertosCve16603_returns h
  case zephyrCve10024 => exact zephyrCve10024_returns h
  case mbedtls2784 => exact mbedtls2784_returns h
  case dummyCve1 => exact dummyCve1_returns h
  case dummyBug => simp [dummyBugListing, alu64, filterDummyBug, setReturn]

theorem LoopFree.length_code (p : LoopFree) : p.code.length = 8 * p.listing.length := by
  cases p <;> decide +kernel

theorem LoopFree.readOnly_listing (p : LoopFree) : readOnly p.listing = true := by
  cases p <;> decide +kernel

theorem LoopFree.exec (p : LoopFree) {rest : List (BitVec 8)} {base : BitVec 32} {c : Call}
    {mem : Mem} (hload : Loaded (p.code ++ rest) base c.vm mem)
    (hcheck : c.vm.boundsCheckEnabled = false) (reg : BitVec 4 → BitVec 64) :
    ebpfVmExec c reg mem = .stop (.returned .exit (p.source mem c.mem)) := by
  have hlists : Lists p.code p.listing := .of_length p.disassemble_code p.length_code
  have hkeeps : KeepsCode [] p.listing (fun _ => False) [] base p.code c reg :=
    keepsCode_of_readOnly hlists p.readOnly_listing reg
  exact hkeeps.exec_of_evalForward hload hcheck (p.length_listing.trans (by decide))
    (p.returns rfl)

/-- Every shipped program without loops returns, for every frame and memory, what
its source returns, whatever follows it in its buffer. -/
theorem loopFree_exec (p : LoopFree) (rest : List (BitVec 8)) (base : BitVec 32) (c : Call)
    (reg : BitVec 4 → BitVec 64) (mem : Mem) (hload : Loaded (p.code ++ rest) base c.vm mem)
    (hcheck : c.vm.boundsCheckEnabled = false) :
    ebpfVmExec c reg mem = .stop (.returned .exit (p.source mem c.mem)) :=
  p.exec hload hcheck reg

/-- Memory with a program, and the byte `0x10` everywhere else. -/
def sixteens (p : LoopFree) : Mem := memcpy (fun _ => 0x10) codeBase (p.code ++ [0])

theorem loopFree_exec_sixteen :
    ebpfVmExec (callOf (LoopFree.freertosCve16603.code ++ [0])) (fun _ => 7)
        (sixteens .freertosCve16603) =
      .stop (.returned .exit
        (LoopFree.freertosCve16603.source (sixteens .freertosCve16603) 0)) :=
  loopFree_exec .freertosCve16603 [0] codeBase
    (callOf (LoopFree.freertosCve16603.code ++ [0])) (fun _ => 7) (sixteens .freertosCve16603)
    (callOf_loaded _ _) rfl

/-! ### What the dispatchers make of it -/

/-- What a dispatcher does with the results of a program. -/
def LoopFree.verdict (mem : Mem) (ctx : BitVec 32) : LoopFree → FilterBranch
  | atestCve =>
      let val := (stackContextAt mem ctx).r0.toInt
      if 2000 < val ∧ val ≤ 5000 then .drop 0 else .pass
  | zephyrCve10063 =>
      if 0xf000 ≤ load16 mem ((stackContextAt mem ctx).r1 + 5) then .drop (-22) else .pass
  | zephyrCve10021 =>
      if load32 mem (stackContextAt mem ctx).r1 ≤ (stackContextAt mem ctx).r0 then .drop 0x977c
      else .pass
  | amnesia33Cve17443 | zephyrCve17443 =>
      if load16 mem ((stackContextAt mem ctx).r0 + 38) < 8 then .drop (-1) else .pass
  | zephyrCve10028 =>
      if load32 mem (load32 mem ((stackContextAt mem ctx).r1 + 4)) = 0 then .drop (-22) else .pass
  | freertosCve16603 =>
      let len := load64 mem ((stackContextAt mem ctx).r0 + 28)
      if 34 ≤ len ∧ len < 54 then .drop 0 else .pass
  | zephyrCve10024 =>
      if (stackContextAt mem ctx).xpsr.getLsbD 29 then .redirect ((stackContextAt mem ctx).pc + 4)
      else .pass
  | mbedtls2784 =>
      let retAddr := (stackContextAt mem ctx).pc + 2
      if retAddr.msb then .drop retAddr else .redirect retAddr
  | dummyCve1 | dummyBug => .pass

/-- The three dispatchers do the same with a result. -/
structure Dispatches (ret : BitVec 64) (v : FilterBranch) : Prop where
  fixed : dispatchFixedPatchPoint ret = v
  fpb : leaveFpbBpkt ret = v
  here : runPatchHere ret = v

namespace Dispatches

variable {ret ret' : BitVec 64} {v v' : FilterBranch}

theorem pass (h : filterOp ret = filterPass) : Dispatches ret .pass := by
  have hdrop : filterPass ≠ filterDrop := by decide
  have hredirect : filterPass ≠ filterRedirect := by decide
  constructor
  · rw [dispatchFixedPatchPoint, h, if_neg hdrop, if_neg hredirect]
  · rw [leaveFpbBpkt, h, if_pos rfl]
  · rw [runPatchHere, h, if_neg hdrop, if_neg hredirect]

theorem drop (h : filterOp ret = filterDrop) : Dispatches ret (.drop (filterRetCode ret)) := by
  have hpass : filterDrop ≠ filterPass := by decide
  constructor
  · rw [dispatchFixedPatchPoint, h, if_pos rfl]
  · rw [leaveFpbBpkt, h, if_neg hpass, if_pos rfl]
  · rw [runPatchHere, h, if_pos rfl]

theorem redirect (h : filterOp ret = filterRedirect) :
    Dispatches ret (.redirect (filterRetCode ret)) := by
  have hpass : filterRedirect ≠ filterPass := by decide
  have hdrop : filterRedirect ≠ filterDrop := by decide
  constructor
  · rw [dispatchFixedPatchPoint, h, if_neg hdrop, if_pos rfl]
  · rw [leaveFpbBpkt, h, if_neg hpass, if_neg hdrop, if_pos rfl]
  · rw [runPatchHere, h, if_neg hdrop, if_pos rfl]

theorem ite {P Q : Prop} [Decidable P] [Decidable Q] (hPQ : P ↔ Q) (h : Dispatches ret v)
    (h' : Dispatches ret' v') : Dispatches (if P then ret else ret') (if Q then v else v') := by
  by_cases hP : P
  · rwa [if_pos hP, if_pos (hPQ.mp hP)]
  · rwa [if_neg hP, if_neg fun hQ => hP (hPQ.mpr hQ)]

end Dispatches

theorem filterRetCode_eq (ret : BitVec 64) : filterRetCode ret = ret.setWidth 32 := by
  have hmask : (0x00000000ffffffff : BitVec 64) = BitVec.ofNat 64 (2 ^ 32 - 1) := rfl
  rw [filterRetCode, hmask, and_mask, setWidth_setWidth_self _ (by decide)]

theorem filterOp_eq (ret : BitVec 64) : filterOp ret = BitVec.ofNat 32 (ret.toNat / 2 ^ 32) := by
  apply BitVec.eq_of_toNat_eq
  rw [filterOp, BitVec.toNat_setWidth, BitVec.toNat_ushiftRight, Nat.shiftRight_eq_div_pow,
    BitVec.toNat_ofNat]

theorem toNat_setReturn (op ret : BitVec 64) :
    (setReturn op ret).toNat = (op.toNat * 2 ^ 32 + ret.toNat) % 2 ^ 64 := by
  rw [setReturn, BitVec.toNat_add, BitVec.toNat_shiftLeft, Nat.shiftLeft_eq, Nat.mod_add_mod]

/-- The operation and the return code of `set_return`, where neither is too
wide. -/
theorem filterOp_setReturn (op : ℕ) (hop : op < 2 ^ 32) (x : BitVec 32) :
    filterOp (setReturn (BitVec.ofNat 64 op) (x.setWidth 64)) = BitVec.ofNat 32 op ∧
      filterRetCode (setReturn (BitVec.ofNat 64 op) (x.setWidth 64)) = x := by
  have hx := x.isLt
  have hop64 : (BitVec.ofNat 64 op).toNat = op := by
    rw [BitVec.toNat_ofNat]
    exact Nat.mod_eq_of_lt (by omega)
  rw [filterOp_eq, filterRetCode_eq]
  constructor
  · rw [toNat_setReturn, hop64, BitVec.toNat_setWidth_of_le (by decide)]
    congr 1
    omega
  · apply BitVec.eq_of_toNat_eq
    rw [BitVec.toNat_setWidth, toNat_setReturn, hop64, BitVec.toNat_setWidth_of_le (by decide)]
    omega

/-- An address with the highest bit is extended by ones, which take one from the
operation. -/
theorem filterOp_signExtend (x : BitVec 32) :
    filterOp (setReturn 2 (x.signExtend 64)) = (if x.msb then filterDrop else filterRedirect) ∧
      filterRetCode (setReturn 2 (x.signExtend 64)) = x := by
  have hx := x.isLt
  have hext : (x.signExtend 64).toNat = x.toNat + if x.msb then 2 ^ 64 - 2 ^ 32 else 0 := by
    rw [BitVec.toNat_signExtend, BitVec.toNat_setWidth_of_le (by decide)]
  have htwo : (2 : BitVec 64).toNat = 2 := rfl
  rw [filterOp_eq, filterRetCode_eq]
  constructor
  · rw [toNat_setReturn, htwo, hext]
    split
    · exact congrArg (BitVec.ofNat 32) (by omega : _ = 1)
    · exact congrArg (BitVec.ofNat 32) (by omega : _ = 2)
  · apply BitVec.eq_of_toNat_eq
    rw [BitVec.toNat_setWidth, toNat_setReturn, htwo, hext]
    split <;> omega

theorem dispatches_signExtend (x : BitVec 32) :
    Dispatches (setReturn 2 (x.signExtend 64)) (if x.msb then .drop x else .redirect x) := by
  obtain ⟨hop, hcode⟩ := filterOp_signExtend x
  split
  · rename_i hmsb
    rw [if_pos hmsb] at hop
    have h := Dispatches.drop hop
    rwa [hcode] at h
  · rename_i hmsb
    rw [if_neg hmsb] at hop
    have h := Dispatches.redirect hop
    rwa [hcode] at h

theorem LoopFree.source_verdict (p : LoopFree) (mem : Mem) (ctx : BitVec 32) :
    Dispatches (p.source mem ctx) (p.verdict mem ctx) := by
  have hpass : Dispatches (setReturn 0 0) .pass := .pass (by decide)
  have hdrop : ∀ x : BitVec 32, Dispatches (setReturn 1 (x.setWidth 64)) (.drop x) := by
    intro x
    obtain ⟨hop, hcode⟩ := filterOp_setReturn 1 (by decide) x
    have h := Dispatches.drop hop
    rwa [hcode] at h
  cases p <;> rw [LoopFree.source, LoopFree.verdict]
  case atestCve => exact .ite and_comm (hdrop 0) hpass
  case zephyrCve10063 =>
    have hguard (len : BitVec 16) : len.setWidth 32 + 0xfff ≥ 0xffff#32 ↔ 0xf000 ≤ len := by
      bv_omega
    have h := (hdrop (-22)).ite (hguard (load16 mem ((stackContextAt mem ctx).r1 + 5))) hpass
    exact h
  case zephyrCve10021 => exact .ite Iff.rfl (hdrop 0x977c) hpass
  case amnesia33Cve17443 => exact .ite Iff.rfl (hdrop (-1)) hpass
  case zephyrCve17443 => exact .ite Iff.rfl (hdrop (-1)) hpass
  case zephyrCve10028 => exact .ite Iff.rfl (hdrop (-22)) hpass
  case freertosCve16603 =>
    have hguard (len : BitVec 64) : len - 14 - 20 < 20 ↔ 34 ≤ len ∧ len < 54 := by
      bv_omega
    have h := (hdrop 0).ite (hguard (load64 mem ((stackContextAt mem ctx).r0 + 28))) hpass
    exact h
  case zephyrCve10024 =>
    have hguard (x : BitVec 32) : x &&& 0x20000000 ≠ 0 ↔ x.getLsbD 29 = true := by
      rw [ne_eq, and_flag, BitVec.getLsbD, Nat.testBit_eq_decide_div_mod_eq, decide_eq_true_iff]
      omega
    obtain ⟨hop, hcode⟩ := filterOp_setReturn 2 (by decide) ((stackContextAt mem ctx).pc + 4)
    have h := Dispatches.redirect hop
    rw [hcode] at h
    exact h.ite (hguard (stackContextAt mem ctx).xpsr) hpass
  case mbedtls2784 =>
    exact dispatches_signExtend ((stackContextAt mem ctx).pc + 2)
  case dummyCve1 =>
    have hop : ∀ P : Prop, ∀ [Decidable P], filterOp (if P then 1 else 0) = filterPass := by
      intro P _
      split <;> decide
    exact .pass (hop _)
  case dummyBug => exact hpass

/-- `zephyr_cve_10021` of the dynamic patches. -/
def zephyrCve10021Lr : List (BitVec 8) :=
  [0xb7, 0x00, 0x00, 0x00, 0x00, 0x00, 0x00, 0x00, 0x61, 0x12, 0x00, 0x00, 0x00, 0x00, 0x00, 0x00,
   0xb7, 0x03, 0x00, 0x00, 0x00, 0x08, 0x00, 0x20, 0x61, 0x33, 0x00, 0x00, 0x00, 0x00, 0x00, 0x00,
   0x2d, 0x23, 0x04, 0x00, 0x00, 0x00, 0x00, 0x00, 0xb7, 0x02, 0x00, 0x00, 0x7c, 0x97, 0x00, 0x00,
   0x63, 0x21, 0x14, 0x00, 0x00, 0x00, 0x00, 0x00, 0x18, 0x00, 0x00, 0x00, 0x00, 0x00, 0x00, 0x00,
   0x00, 0x00, 0x00, 0x00, 0x01, 0x00, 0x00, 0x00, 0x95, 0x00, 0x00, 0x00, 0x00, 0x00, 0x00, 0x00]

def zephyrCve10021LrListing : List Inst :=
  [aluImm .mov 0 0, load .w 2 1 0, aluImm .mov 3 0x20000800, load .w 3 3 0, branchReg .jgt 3 2 4,
   aluImm .mov 2 0x977c, store .w 1 20 2, loadWide 0 0, wideHigh 1, exitInst]

theorem disassemble_10021Lr : disassemble zephyrCve10021Lr = zephyrCve10021LrListing := rfl

theorem zephyrCve10021Lr_ends {c : Call} {d : Data} {ctx : BitVec 32}
    (h : d.reg 1#4 = ctx.setWidth 64) :
    evalForward c.withoutChecks (fun d => (d.reg 0, d.mem)) zephyrCve10021LrListing 0 d =
      some (if load32 d.mem 0x20000800 ≤ load32 d.mem ctx then
        (setReturn 1 0, store32 d.mem (ctx + 20) 0x977c) else (setReturn 0 0, d.mem)) := by
  have hrun : evalForward c.withoutChecks (fun d => (d.reg 0, d.mem)) zephyrCve10021LrListing 0 d =
      if ((load32 d.mem ctx).setWidth 64).ult ((load32 d.mem 0x20000800).setWidth 64) then
        some (setReturn 0 0, d.mem)
      else some (setReturn 1 0, store32 d.mem (ctx + 20) 0x977c) := by
    simp [zephyrCve10021LrListing, alu64, jmpTaken, h, ofNat_loadLE_word, setWidth_add_setWidth,
      setReturn]
    rfl
  have hguard :
      ¬((load32 d.mem ctx).setWidth 64).ult ((load32 d.mem 0x20000800).setWidth 64) = true ↔
        load32 d.mem 0x20000800 ≤ load32 d.mem ctx := by
    rw [BitVec.ult, decide_eq_true_iff]
    bv_omega
  rw [hrun, ← ite_not, some_ite hguard]

/-- The saved link register is written alone. -/
theorem stackContextAt_store32_lr (mem : Mem) (ctx v : BitVec 32) :
    stackContextAt (store32 mem (ctx + 20) v) ctx = { stackContextAt mem ctx with lr := v } := by
  have hother : ∀ a : BitVec 32, 4 ≤ (a - (ctx + 20)).toNat → 4 ≤ (ctx + 20 - a).toNat →
      load32 (store32 mem (ctx + 20) v) a = load32 mem a := by
    intro a hab hba
    exact load32_store32_of_disjoint mem (ctx + 20) a v hab hba
  simp only [stackContextAt, load32_store32, StackContext.mk.injEq, true_and]
  refine ⟨?_, ?_, ?_, ?_, ?_, ?_, ?_⟩
  all_goals
    refine hother _ ?_ ?_ <;> bv_omega

/-- It stores to the saved link register, and nowhere else. -/
theorem zephyrCve10021Lr_keeps {base : BitVec 32} {c : Call} (reg : BitVec 4 → BitVec 64)
    (hmiss : ∀ k < zephyrCve10021Lr.length, ¬InSpan (c.mem + 20) 4 (base + BitVec.ofNat 32 k)) :
    KeepsCode [] zephyrCve10021LrListing (InSpan (c.mem + 20) 4) [1] base zephyrCve10021Lr c
      reg := by
  have hlists : Lists zephyrCve10021Lr zephyrCve10021LrListing := ⟨rfl, rfl⟩
  have hwrites : ∀ i ∈ zephyrCve10021LrListing, ∀ r ∈ [(1 : BitVec 4)], r ∉ i.writes := by
    decide +kernel
  have hstores : ∀ i ∈ zephyrCve10021LrListing, i.stores = false ∨ i = store .w 1 20 2 := by
    decide +kernel
  refine ⟨hlists, by decide +kernel, List.forall_mem_nil _, hwrites, fun i hi => ?_, hmiss⟩
  rcases hstores i hi with hnone | rfl
  · exact keepsOutside_of_not_stores hnone
  · have hop : (store .w 1 20 2).op = .stx .w := rfl
    refine keepsOutside_stx hop List.mem_cons_self fun a ha => ?_
    have haddr : address (c.mem.setWidth 64) (store .w 1 20 2) = c.mem + 20 :=
      setWidth_add_setWidth c.mem 20 (by decide)
    rwa [← haddr]

/-- Run by the interpreter on the registers saved at a breakpoint, an access
behind the end of the medium returns zero to `0x977c`, and every other one goes
on as it was; in memory nothing but the saved link register changes. -/
theorem zephyrCve10021_breakpoint (rest : List (BitVec 8)) (base : BitVec 32) (c : Call)
    (reg : BitVec 4 → BitVec 64) (mem : Mem)
    (hload : Loaded (zephyrCve10021Lr ++ rest) base c.vm mem)
    (hcheck : c.vm.boundsCheckEnabled = false)
    (hmiss : ∀ k < zephyrCve10021Lr.length, ¬InSpan (c.mem + 20) 4 (base + BitVec.ofNat 32 k)) :
    ∃ t ret, Reaches (step c) (initState c reg mem) t ∧ step c t = .stop (.returned .exit ret) ∧
      ebpfVmExec c reg mem = .stop (.returned .exit ret) ∧
      (stackContextAt t.mem c.mem).leaveDebugMonitor (some ret) =
        (if load32 mem 0x20000800 ≤ (stackContextAt mem c.mem).r0 then
          ⟨0x977c, { (stackContextAt mem c.mem).args with r0 := 0 }⟩
        else ⟨(stackContextAt mem c.mem).pc, (stackContextAt mem c.mem).args⟩) ∧
      ∀ a, ¬InSpan (c.mem + 20) 4 a → t.mem a = mem a := by
  have hkeeps := zephyrCve10021Lr_keeps reg hmiss
  obtain ⟨t, hreach, hstop, hexec, hres⟩ := hkeeps.ends_of_evalForward hload hcheck (by decide)
    (f := fun d => (d.reg 0, d.mem)) (zephyrCve10021Lr_ends rfl)
  refine ⟨t, t.reg 0, hreach, hstop, hexec, ?_, (hkeeps.reaches hload hreach).1⟩
  have hres : (t.reg 0, t.mem) =
      if load32 mem 0x20000800 ≤ (stackContextAt mem c.mem).r0 then
        (setReturn 1 0, store32 mem (c.mem + 20) 0x977c) else (setReturn 0 0, mem) := hres
  by_cases hbehind : load32 mem 0x20000800 ≤ (stackContextAt mem c.mem).r0
  · rw [if_pos hbehind] at hres
    obtain ⟨hret, htmem⟩ := Prod.mk.inj hres
    have hdrop : Hotpatch.runPatchHere (t.reg 0) = .drop 0 := by
      rw [hret]
      decide
    rw [htmem, stackContextAt_store32_lr, if_pos hbehind]
    simp only [StackContext.leaveDebugMonitor, StackContext.runPatchHere, hdrop, StackContext.args]
  · rw [if_neg hbehind] at hres
    obtain ⟨hret, htmem⟩ := Prod.mk.inj hres
    have hpass : Hotpatch.runPatchHere (t.reg 0) = .pass := by
      rw [hret]
      decide
    rw [htmem, if_neg hbehind]
    simp only [StackContext.leaveDebugMonitor, StackContext.runPatchHere, hpass]

def lrMem : Mem := memcpy (fun _ => 0) codeBase (zephyrCve10021Lr ++ [0])

theorem zephyrCve10021_breakpoint_behind :
    ∃ t ret, Reaches (step (callOf (zephyrCve10021Lr ++ [0])))
        (initState (callOf (zephyrCve10021Lr ++ [0])) (fun _ => 7) lrMem) t ∧
      step (callOf (zephyrCve10021Lr ++ [0])) t = .stop (.returned .exit ret) ∧
      ebpfVmExec (callOf (zephyrCve10021Lr ++ [0])) (fun _ => 7) lrMem =
        .stop (.returned .exit ret) ∧
      (stackContextAt t.mem 0).leaveDebugMonitor (some ret) = ⟨0x977c, ⟨0, 0, 0, 0⟩⟩ ∧
      ∀ a, ¬InSpan (0 + 20) 4 a → t.mem a = lrMem a :=
  zephyrCve10021_breakpoint [0] codeBase (callOf (zephyrCve10021Lr ++ [0])) (fun _ => 7) lrMem
    (callOf_loaded _ _) rfl (by unfold InSpan; decide +kernel)

end RapidPatch.Patches
