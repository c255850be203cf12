import RapidPatch.Hotpatch.Dispatch
import RapidPatch.Patches.MqttLength
import RapidPatch.Support.Truncation
import RapidPatch.Vm.Checker

/-!
The shipped bytecode of the MQTT length filter.

The dynamic and the fixed patches have different programs for it. Both look for
the last byte of the length with one test after the other (`MqttFrame`). The
first then adds up the value without a loop and the second with a loop that
takes two bytes a turn; as the compiler could not know, neither value is ever
too large.

The first program is the filter (`mqtt_exec`). The second was not compiled from
it: where the filter lets a call pass, it asks for a redirection to an address,
which a fixed patch point does not carry out. So with the second no call of the
decoder runs its body (`mqttFixed_calls`).
-/

namespace RapidPatch.Patches

open RapidPatch.Support RapidPatch.Hotpatch RapidPatch.Vm

/-! ### The programs -/

/-- `zephyr_cve_10062` of the dynamic patches. -/
def zephyrCve10062 : List (BitVec 8) :=
  [0xb7, 0x03, 0x00, 0x00, 0x01, 0x00, 0x00, 0x00, 0x61, 0x11, 0x00, 0x00, 0x00, 0x00, 0x00, 0x00,
   0x79, 0x12, 0x00, 0x00, 0x00, 0x00, 0x00, 0x00, 0x71, 0x21, 0x00, 0x00, 0x00, 0x00, 0x00, 0x00,
   0x67, 0x01, 0x00, 0x00, 0x38, 0x00, 0x00, 0x00, 0xc7, 0x01, 0x00, 0x00, 0x38, 0x00, 0x00, 0x00,
   0x65, 0x01, 0x06, 0x00, 0xff, 0xff, 0xff, 0xff, 0xb7, 0x03, 0x00, 0x00, 0x02, 0x00, 0x00, 0x00,
   0x71, 0x24, 0x01, 0x00, 0x00, 0x00, 0x00, 0x00, 0x67, 0x04, 0x00, 0x00, 0x38, 0x00, 0x00, 0x00,
   0xc7, 0x04, 0x00, 0x00, 0x38, 0x00, 0x00, 0x00, 0xb7, 0x05, 0x00, 0x00, 0x00, 0x00, 0x00, 0x00,
   0x6d, 0x45, 0x1d, 0x00, 0x00, 0x00, 0x00, 0x00, 0x57, 0x01, 0x00, 0x00, 0x7f, 0x00, 0x00, 0x00,
   0x55, 0x03, 0x0a, 0x00, 0x01, 0x00, 0x00, 0x00, 0x18, 0x02, 0x00, 0x00, 0xea, 0xff, 0xff, 0xff,
   0x00, 0x00, 0x00, 0x00, 0x00, 0x00, 0x00, 0x00, 0x25, 0x01, 0x01, 0x00, 0xff, 0xff, 0xff, 0x0f,
   0xb7, 0x02, 0x00, 0x00, 0x00, 0x00, 0x00, 0x00, 0xb7, 0x00, 0x00, 0x00, 0x01, 0x00, 0x00, 0x00,
   0x25, 0x01, 0x01, 0x00, 0xff, 0xff, 0xff, 0x0f, 0xb7, 0x00, 0x00, 0x00, 0x00, 0x00, 0x00, 0x00,
   0x67, 0x00, 0x00, 0x00, 0x20, 0x00, 0x00, 0x00, 0x4f, 0x20, 0x00, 0x00, 0x00, 0x00, 0x00, 0x00,
   0x95, 0x00, 0x00, 0x00, 0x00, 0x00, 0x00, 0x00, 0x71, 0x24, 0x01, 0x00, 0x00, 0x00, 0x00, 0x00,
   0x57, 0x04, 0x00, 0x00, 0x7f, 0x00, 0x00, 0x00, 0x67, 0x04, 0x00, 0x00, 0x07, 0x00, 0x00, 0x00,
   0x4f, 0x14, 0x00, 0x00, 0x00, 0x00, 0x00, 0x00, 0xbf, 0x41, 0x00, 0x00, 0x00, 0x00, 0x00, 0x00,
   0x15, 0x03, 0xf0, 0xff, 0x02, 0x00, 0x00, 0x00, 0x71, 0x21, 0x02, 0x00, 0x00, 0x00, 0x00, 0x00,
   0x57, 0x01, 0x00, 0x00, 0x7f, 0x00, 0x00, 0x00, 0x67, 0x01, 0x00, 0x00, 0x0e, 0x00, 0x00, 0x00,
   0x4f, 0x41, 0x00, 0x00, 0x00, 0x00, 0x00, 0x00, 0x15, 0x03, 0xeb, 0xff, 0x03, 0x00, 0x00, 0x00,
   0x71, 0x22, 0x03, 0x00, 0x00, 0x00, 0x00, 0x00, 0x57, 0x02, 0x00, 0x00, 0x7f, 0x00, 0x00, 0x00,
   0x67, 0x02, 0x00, 0x00, 0x15, 0x00, 0x00, 0x00, 0x4f, 0x12, 0x00, 0x00, 0x00, 0x00, 0x00, 0x00,
   0xbf, 0x21, 0x00, 0x00, 0x00, 0x00, 0x00, 0x00, 0x05, 0x00, 0xe5, 0xff, 0x00, 0x00, 0x00, 0x00,
   0xb7, 0x03, 0x00, 0x00, 0x03, 0x00, 0x00, 0x00, 0x71, 0x24, 0x02, 0x00, 0x00, 0x00, 0x00, 0x00,
   0x67, 0x04, 0x00, 0x00, 0x38, 0x00, 0x00, 0x00, 0xc7, 0x04, 0x00, 0x00, 0x38, 0x00, 0x00, 0x00,
   0x65, 0x04, 0xde, 0xff, 0xff, 0xff, 0xff, 0xff, 0xb7, 0x03, 0x00, 0x00, 0x04, 0x00, 0x00, 0x00,
   0x71, 0x24, 0x03, 0x00, 0x00, 0x00, 0x00, 0x00, 0x67, 0x04, 0x00, 0x00, 0x38, 0x00, 0x00, 0x00,
   0xc7, 0x04, 0x00, 0x00, 0x38, 0x00, 0x00, 0x00, 0x65, 0x04, 0xd9, 0xff, 0xff, 0xff, 0xff, 0xff,
   0x18, 0x00, 0x00, 0x00, 0xea, 0xff, 0xff, 0xff, 0x00, 0x00, 0x00, 0x00, 0x01, 0x00, 0x00, 0x00,
   0x71, 0x24, 0x04, 0x00, 0x00, 0x00, 0x00, 0x00, 0x67, 0x04, 0x00, 0x00, 0x38, 0x00, 0x00, 0x00,
   0xc7, 0x04, 0x00, 0x00, 0x38, 0x00, 0x00, 0x00, 0xb7, 0x03, 0x00, 0x00, 0x01, 0x00, 0x00, 0x00,
   0x65, 0x04, 0xdd, 0xff, 0xff, 0xff, 0xff, 0xff, 0x05, 0x00, 0xd1, 0xff, 0x00, 0x00, 0x00, 0x00]

/-- `zephyr_cve_10062` of the fixed patches. -/
def zephyrCve10062Fixed : List (BitVec 8) :=
  [0xb7, 0x06, 0x00, 0x00, 0x00, 0x00, 0x00, 0x00, 0xb7, 0x04, 0x00, 0x00, 0x01, 0x00, 0x00, 0x00,
   0x61, 0x11, 0x00, 0x00, 0x00, 0x00, 0x00, 0x00, 0x79, 0x12, 0x00, 0x00, 0x00, 0x00, 0x00, 0x00,
   0x71, 0x21, 0x00, 0x00, 0x00, 0x00, 0x00, 0x00, 0x67, 0x01, 0x00, 0x00, 0x38, 0x00, 0x00, 0x00,
   0xc7, 0x01, 0x00, 0x00, 0x38, 0x00, 0x00, 0x00, 0xb7, 0x03, 0x00, 0x00, 0x00, 0x00, 0x00, 0x00,
   0x65, 0x01, 0x07, 0x00, 0xff, 0xff, 0xff, 0xff, 0xb7, 0x06, 0x00, 0x00, 0x01, 0x00, 0x00, 0x00,
   0x71, 0x25, 0x01, 0x00, 0x00, 0x00, 0x00, 0x00, 0x67, 0x05, 0x00, 0x00, 0x38, 0x00, 0x00, 0x00,
   0xc7, 0x05, 0x00, 0x00, 0x38, 0x00, 0x00, 0x00, 0xb7, 0x04, 0x00, 0x00, 0x00, 0x00, 0x00, 0x00,
   0xb7, 0x03, 0x00, 0x00, 0x01, 0x00, 0x00, 0x00, 0x6d, 0x54, 0x33, 0x00, 0x00, 0x00, 0x00, 0x00,
   0x57, 0x01, 0x00, 0x00, 0x7f, 0x00, 0x00, 0x00, 0x55, 0x04, 0x29, 0x00, 0x00, 0x00, 0x00, 0x00,
   0xb7, 0x04, 0x00, 0x00, 0x07, 0x00, 0x00, 0x00, 0xb7, 0x05, 0x00, 0x00, 0x01, 0x00, 0x00, 0x00,
   0xbf, 0x30, 0x00, 0x00, 0x00, 0x00, 0x00, 0x00, 0x57, 0x00, 0x00, 0x00, 0x01, 0x00, 0x00, 0x00,
   0x55, 0x06, 0x1b, 0x00, 0x00, 0x00, 0x00, 0x00, 0xb7, 0x05, 0x00, 0x00, 0x00, 0x00, 0x00, 0x00,
   0xb7, 0x04, 0x00, 0x00, 0x07, 0x00, 0x00, 0x00, 0x57, 0x03, 0x00, 0x00, 0x02, 0x00, 0x00, 0x00,
   0xbf, 0x27, 0x00, 0x00, 0x00, 0x00, 0x00, 0x00, 0x0f, 0x57, 0x00, 0x00, 0x00, 0x00, 0x00, 0x00,
   0x71, 0x76, 0x02, 0x00, 0x00, 0x00, 0x00, 0x00, 0x57, 0x06, 0x00, 0x00, 0x7f, 0x00, 0x00, 0x00,
   0xbf, 0x48, 0x00, 0x00, 0x00, 0x00, 0x00, 0x00, 0x07, 0x08, 0x00, 0x00, 0x07, 0x00, 0x00, 0x00,
   0x67, 0x08, 0x00, 0x00, 0x20, 0x00, 0x00, 0x00, 0x77, 0x08, 0x00, 0x00, 0x20, 0x00, 0x00, 0x00,
   0x6f, 0x86, 0x00, 0x00, 0x00, 0x00, 0x00, 0x00, 0x71, 0x77, 0x01, 0x00, 0x00, 0x00, 0x00, 0x00,
   0x57, 0x07, 0x00, 0x00, 0x7f, 0x00, 0x00, 0x00, 0xbf, 0x48, 0x00, 0x00, 0x00, 0x00, 0x00, 0x00,
   0x67, 0x08, 0x00, 0x00, 0x20, 0x00, 0x00, 0x00, 0x77, 0x08, 0x00, 0x00, 0x20, 0x00, 0x00, 0x00,
   0x6f, 0x87, 0x00, 0x00, 0x00, 0x00, 0x00, 0x00, 0x0f, 0x17, 0x00, 0x00, 0x00, 0x00, 0x00, 0x00,
   0x0f, 0x76, 0x00, 0x00, 0x00, 0x00, 0x00, 0x00, 0x07, 0x04, 0x00, 0x00, 0x0e, 0x00, 0x00, 0x00,
   0x07, 0x05, 0x00, 0x00, 0x02, 0x00, 0x00, 0x00, 0xbf, 0x61, 0x00, 0x00, 0x00, 0x00, 0x00, 0x00,
   0x1d, 0x53, 0x01, 0x00, 0x00, 0x00, 0x00, 0x00, 0x05, 0x00, 0xea, 0xff, 0x00, 0x00, 0x00, 0x00,
   0x07, 0x05, 0x00, 0x00, 0x01, 0x00, 0x00, 0x00, 0xbf, 0x61, 0x00, 0x00, 0x00, 0x00, 0x00, 0x00,
   0x15, 0x00, 0x08, 0x00, 0x00, 0x00, 0x00, 0x00, 0x0f, 0x52, 0x00, 0x00, 0x00, 0x00, 0x00, 0x00,
   0x71, 0x22, 0x00, 0x00, 0x00, 0x00, 0x00, 0x00, 0x57, 0x02, 0x00, 0x00, 0x7f, 0x00, 0x00, 0x00,
   0x67, 0x04, 0x00, 0x00, 0x20, 0x00, 0x00, 0x00, 0x77, 0x04, 0x00, 0x00, 0x20, 0x00, 0x00, 0x00,
   0x6f, 0x42, 0x00, 0x00, 0x00, 0x00, 0x00, 0x00, 0x0f, 0x12, 0x00, 0x00, 0x00, 0x00, 0x00, 0x00,
   0xbf, 0x21, 0x00, 0x00, 0x00, 0x00, 0x00, 0x00, 0x67, 0x01, 0x00, 0x00, 0x20, 0x00, 0x00, 0x00,
   0x77, 0x01, 0x00, 0x00, 0x20, 0x00, 0x00, 0x00, 0x18, 0x00, 0x00, 0x00, 0xea, 0xff, 0xff, 0xff,
   0x00, 0x00, 0x00, 0x00, 0x01, 0x00, 0x00, 0x00, 0x25, 0x01, 0x02, 0x00, 0xff, 0xff, 0xff, 0x0f,
   0x18, 0x00, 0x00, 0x00, 0x2b, 0x02, 0x00, 0x00, 0x00, 0x00, 0x00, 0x00, 0x02, 0x00, 0x00, 0x00,
   0x95, 0x00, 0x00, 0x00, 0x00, 0x00, 0x00, 0x00, 0xb7, 0x03, 0x00, 0x00, 0x02, 0x00, 0x00, 0x00,
   0xb7, 0x04, 0x00, 0x00, 0x00, 0x00, 0x00, 0x00, 0x71, 0x25, 0x02, 0x00, 0x00, 0x00, 0x00, 0x00,
   0x67, 0x05, 0x00, 0x00, 0x38, 0x00, 0x00, 0x00, 0xc7, 0x05, 0x00, 0x00, 0x38, 0x00, 0x00, 0x00,
   0xb7, 0x06, 0x00, 0x00, 0x00, 0x00, 0x00, 0x00, 0x65, 0x05, 0xc6, 0xff, 0xff, 0xff, 0xff, 0xff,
   0xb7, 0x03, 0x00, 0x00, 0x03, 0x00, 0x00, 0x00, 0x71, 0x25, 0x03, 0x00, 0x00, 0x00, 0x00, 0x00,
   0x67, 0x05, 0x00, 0x00, 0x38, 0x00, 0x00, 0x00, 0xc7, 0x05, 0x00, 0x00, 0x38, 0x00, 0x00, 0x00,
   0xb7, 0x06, 0x00, 0x00, 0x00, 0x00, 0x00, 0x00, 0x65, 0x05, 0xc0, 0xff, 0xff, 0xff, 0xff, 0xff,
   0xb7, 0x06, 0x00, 0x00, 0x00, 0x00, 0x00, 0x00, 0xb7, 0x04, 0x00, 0x00, 0x01, 0x00, 0x00, 0x00,
   0x18, 0x00, 0x00, 0x00, 0xea, 0xff, 0xff, 0xff, 0x00, 0x00, 0x00, 0x00, 0x01, 0x00, 0x00, 0x00,
   0x71, 0x25, 0x04, 0x00, 0x00, 0x00, 0x00, 0x00, 0x67, 0x05, 0x00, 0x00, 0x38, 0x00, 0x00, 0x00,
   0xc7, 0x05, 0x00, 0x00, 0x38, 0x00, 0x00, 0x00, 0xb7, 0x03, 0x00, 0x00, 0x00, 0x00, 0x00, 0x00,
   0x65, 0x05, 0xe9, 0xff, 0xff, 0xff, 0xff, 0xff, 0x05, 0x00, 0xb6, 0xff, 0x00, 0x00, 0x00, 0x00]

/-- A byte is loaded with its sign. -/
def loadSigned (dst src : BitVec 4) (offset : BitVec 16) : List Inst :=
  [load .b dst src offset, aluImm .lsh dst 0x38, aluImm .arsh dst 0x38]

/-- The search of the first program. -/
def mqttSearch : List Inst :=
  [aluImm .mov 3 1, load .w 1 1 0, load .dw 2 1 0] ++ loadSigned 1 2 0 ++
    [branchImm .jsgt 1 0xffffffff (offsetTo 6 13), aluImm .mov 3 2] ++ loadSigned 4 2 1 ++
    [aluImm .mov 5 0, branchReg .jsgt 5 4 (offsetTo 12 42)]

def mqttValue : List Inst :=
  [aluImm .and 1 0x7f, branchImm .jne 3 1 (offsetTo 14 25), loadWide 2 0xffffffea, wideHigh 0,
   branchImm .jgt 1 0xfffffff (offsetTo 17 19), aluImm .mov 2 0, aluImm .mov 0 1,
   branchImm .jgt 1 0xfffffff (offsetTo 20 22), aluImm .mov 0 0, aluImm .lsh 0 0x20, aluReg .or 0 2,
   exitInst, load .b 4 2 1, aluImm .and 4 0x7f, aluImm .lsh 4 7, aluReg .or 4 1, aluReg .mov 1 4,
   branchImm .jeq 3 2 (offsetTo 30 15), load .b 1 2 2, aluImm .and 1 0x7f, aluImm .lsh 1 0xe,
   aluReg .or 1 4, branchImm .jeq 3 3 (offsetTo 35 15), load .b 2 2 3, aluImm .and 2 0x7f,
   aluImm .lsh 2 0x15, aluReg .or 2 1, aluReg .mov 1 2, jumpAlways (offsetTo 41 15)]

def mqttListing : List Inst :=
  mqttSearch ++ mqttValue ++
    (aluImm .mov 3 3 :: loadSigned 4 2 2 ++ [branchImm .jsgt 4 0xffffffff (offsetTo 46 13)]) ++
    (aluImm .mov 3 4 :: loadSigned 4 2 3 ++ [branchImm .jsgt 4 0xffffffff (offsetTo 51 13)]) ++
    [loadWide 0 0xffffffea, wideHigh 1] ++ loadSigned 4 2 4 ++
    [aluImm .mov 3 1, branchImm .jsgt 4 0xffffffff (offsetTo 58 24), jumpAlways (offsetTo 59 13)]

theorem disassemble_mqtt : disassemble zephyrCve10062 = mqttListing := rfl

/-! ### Bytes -/

section Bytes

variable {mem : Mem} {cur : BitVec 32} {s t : State} {c : Call} {x : BitVec 64}

/-- r2 is `cur`, in its low bits, and r1 the first byte. -/
structure MqttAt (m : Mem) (cur : BitVec 32) (s : State) : Prop where
  mem : s.mem = m
  ptr : (s.reg 2).setWidth 32 = cur
  first : s.reg 1 = (bytesFrom m cur 0).signExtend 64

theorem mqtt_byte (hmem : s.mem = mem) (hx : x.setWidth 32 = cur) (k : ℕ) :
    BitVec.ofNat 64 (loadLE s.mem ((x + BitVec.ofNat 64 k).setWidth 32) Size.b.bytes) =
      (bytesFrom mem cur k).setWidth 64 := by
  rw [ofNat_loadLE_byte, BitVec.setWidth_add _ _ (by decide), hx, hmem, bytesFrom,
    BitVec.setWidth_ofNat_of_le (by decide)]

theorem mqtt_signed (hmem : s.mem = mem) (hx : x.setWidth 32 = cur) (k : ℕ) :
    (BitVec.ofNat 64 (loadLE s.mem ((x + BitVec.ofNat 64 k).setWidth 32) Size.b.bytes) <<<
      0x38).sshiftRight 0x38 = (bytesFrom mem cur k).signExtend 64 := by
  rw [mqtt_byte hmem hx k]
  refine (sshiftRight_shiftLeft (k := 8) _ (by decide) (by decide)).trans ?_
  rw [setWidth_setWidth_self _ (by decide)]

theorem jmpTaken_signed (b : BitVec 8) (y : BitVec 64) :
    jmpTaken .jsgt .imm (b.signExtend 64) y 0xffffffff = decide ¬Continues b := by
  show (BitVec.signExtend 64 0xffffffff#32).slt (b.signExtend 64) = _
  revert b
  decide

/-- The test of the second byte is the other way around. -/
theorem jmpTaken_negative {y : BitVec 64} {b : BitVec 8} (hx : x = 0)
    (hy : y = b.signExtend 64) : jmpTaken .jsgt .reg x y 0 = decide (Continues b) := by
  subst hx hy
  show (b.signExtend 64).slt 0 = _
  revert b
  decide

end Bytes

/-! ### The search -/

def mqttDrop : BitVec 64 := setReturn 1 (minusEinval.setWidth 64)

/-- Where the tests of the bytes are and what holds before them, where the value
of the length is computed, and how the registers tell which byte is the last. -/
structure MqttFrame (c : Call) (entry : ℕ → ℕ) (found out : ℕ) (Before Tells : ℕ → State → Prop)
    (ok : BitVec 64) : Prop where
  start : ∀ reg mem, Within (turn c) 11 (initState c reg mem) fun t =>
    MqttAt mem (load32 mem (load32 mem c.mem)) t ∧
      if Continues (bytesFrom mem (load32 mem (load32 mem c.mem)) 0) then
        t.pc = BitVec.ofNat 16 (entry 1) ∧ Before 1 t
      else t.pc = BitVec.ofNat 16 found ∧ Tells 0 t
  probe : ∀ mem cur k s, 0 < k → k < 4 → MqttAt mem cur s → s.pc = BitVec.ofNat 16 (entry k) →
    Before k s → Within (turn c) 8 s fun t => MqttAt mem cur t ∧
      if Continues (bytesFrom mem cur k) then
        t.pc = BitVec.ofNat 16 (entry (k + 1)) ∧ Before (k + 1) t
      else t.pc = BitVec.ofNat 16 found ∧ Tells k t
  fifth : ∀ mem cur s, MqttAt mem cur s → s.pc = BitVec.ofNat 16 (entry 4) →
    Within (turn c) 10 s fun t =>
      if Continues (bytesFrom mem cur 4) then
        MqttAt mem cur t ∧ t.pc = BitVec.ofNat 16 found ∧ Tells 0 t
      else t.pc = BitVec.ofNat 16 out ∧ t.reg 0 = mqttDrop
  value : ∀ mem cur e s, e < 4 → MqttAt mem cur s → s.pc = BitVec.ofNat 16 found → Tells e s →
    HaltsWithin (turn c) 80 s (.returned .exit ok)
  exit : ∀ s, s.pc = BitVec.ofNat 16 out → turn c s = .stop (.returned .exit (s.reg 0))

section Search

variable {mem : Mem} {cur : BitVec 32} {s : State} {c : Call} {entry : ℕ → ℕ} {found out k : ℕ}
  {Before Tells : ℕ → State → Prop} {ok : BitVec 64} {buf : BufCtx}

theorem mqttFilter_cases (mem : Mem) (buf : BufCtx) :
    mqttFilter mem buf = mqttDrop ∨ mqttFilter mem buf = setReturn 0 0 := by
  simp only [mqttFilter]
  split
  · exact .inl rfl
  · split
    · exact .inl rfl
    · exact .inr rfl

/-- A stream of bytes continues at each of the first five, or has its last byte
among them. -/
theorem endsAt_or_continues (f : ℕ → BitVec 8) (n : ℕ) :
    (∀ i < n, Continues (f i)) ∨ ∃ e < n, EndsAt f e := by
  induction n with
  | zero => exact .inl fun i hi => absurd hi (Nat.not_lt_zero i)
  | succ n ih =>
      rcases ih with hall | ⟨e, he, hends⟩
      · by_cases hn : Continues (f n)
        · refine .inl fun i hi => ?_
          rcases Nat.lt_succ_iff_lt_or_eq.mp hi with hlt | rfl
          · exact hall i hlt
          · exact hn
        · exact .inr ⟨n, n.lt_succ_self, hall, hn⟩
      · exact .inr ⟨e, Nat.lt_succ_of_lt he, hends⟩

theorem mqttFilter_drops (h : EndsAt (bytesFrom mem buf.cur) 4) :
    mqttFilter mem buf = mqttDrop := by
  rcases mqttFilter_cases mem buf with hdrop | hpass
  · exact hdrop
  · have hop := mqttFilter_of_ends h (by decide)
    rw [hpass] at hop
    exact absurd hop (by decide)

theorem mqttFilter_passes (h : ¬EndsAt (bytesFrom mem buf.cur) 4) :
    mqttFilter mem buf = setReturn 0 0 := by
  have hop : filterOp (mqttFilter mem buf) = 0 := by
    rcases endsAt_or_continues (bytesFrom mem buf.cur) 5 with hall | ⟨e, he, hends⟩
    · exact mqttFilter_of_continues hall
    · have hne : e ≠ 4 := fun h4 => h (h4 ▸ hends)
      rw [mqttFilter_of_ends hends he, if_pos (by omega)]
  rcases mqttFilter_cases mem buf with hdrop | hpass
  · rw [hdrop] at hop
    exact absurd hop (by decide)
  · exact hpass

/-- From one of the tests on. -/
theorem MqttFrame.search {v : BitVec 64} (h : MqttFrame c entry found out Before Tells ok)
    (hdrop : EndsAt (bytesFrom mem cur) 4 → v = mqttDrop)
    (hok : ¬EndsAt (bytesFrom mem cur) 4 → v = ok) (n : ℕ) (hk : 0 < k) (hn : k + n = 4)
    (hbefore : ∀ i < k, Continues (bytesFrom mem cur i)) (hs : MqttAt mem cur s)
    (hpc : s.pc = BitVec.ofNat 16 (entry k)) (hs' : Before k s) :
    HaltsWithin (turn c) (10 + 80 + 8 * n) s (.returned .exit v) := by
  induction n generalizing k s with
  | zero =>
      obtain rfl : k = 4 := by omega
      refine (h.fifth mem cur s hs hpc).seq (n := 80) ?_
      intro t ht
      split at ht
      · rename_i hmore
        obtain ⟨hat, htpc, htells⟩ := ht
        rw [hok fun hends => hends.last hmore]
        exact h.value mem cur 0 t (by decide) hat htpc htells
      · rename_i hlast
        obtain ⟨htpc, h0⟩ := ht
        rw [hdrop ⟨hbefore, hlast⟩, ← h0]
        exact .refl (h.exit t htpc)
  | succ n ih =>
      refine ((h.probe mem cur k s hk (by omega) hs hpc hs').seq (n := 10 + 80 + 8 * n) ?_).le
        (by omega)
      rintro t ⟨hat, ht⟩
      split at ht
      · rename_i hmore
        refine ih (Nat.succ_pos k) (by omega) (fun i hi => ?_) hat ht.1 ht.2
        rcases Nat.lt_succ_iff_lt_or_eq.mp hi with hlt | rfl
        · exact hbefore i hlt
        · exact hmore
      · rename_i hlast
        rw [hok fun hends => hlast (hends.before k (by omega))]
        exact (h.value mem cur k t (by omega) hat ht.1 ht.2).le (by omega)

theorem MqttFrame.exec (h : MqttFrame c entry found out Before Tells ok)
    (reg : BitVec 4 → BitVec 64)
    (hbuf : buf.cur = load32 mem (load32 mem c.mem)) :
    ebpfVmExec c reg mem =
      .stop (.returned .exit (if mqttFilter mem buf = mqttDrop then mqttDrop else ok)) := by
  have hdrop : EndsAt (bytesFrom mem buf.cur) 4 →
      (if mqttFilter mem buf = mqttDrop then mqttDrop else ok) = mqttDrop :=
    fun hends => if_pos (mqttFilter_drops hends)
  have hok : ¬EndsAt (bytesFrom mem buf.cur) 4 →
      (if mqttFilter mem buf = mqttDrop then mqttDrop else ok) = ok := by
    intro hends
    rw [mqttFilter_passes hends]
    exact if_neg (by decide)
  rw [hbuf] at hdrop hok
  refine ebpfVmExec_of_halts (n := 11 + (10 + 80 + 8 * 3)) ?_ (by decide)
  refine (h.start reg mem).seq ?_
  rintro s ⟨hat, hs⟩
  split at hs
  · rename_i hmore
    refine h.search hdrop hok 3 (by decide) rfl (fun i hi => ?_) hat hs.1 hs.2
    rwa [Nat.lt_one_iff.mp hi]
  · rename_i hlast
    rw [hok fun hends => hlast (hends.before 0 (by decide))]
    exact (h.value _ _ 0 s (by decide) hat hs.1 hs.2).le (by decide)

end Search

/-! ### The first program -/

section Dynamic

variable {mem : Mem} {cur : BitVec 32} {s : State} {c : Call} {x y : BitVec 64} {k : ℕ}

theorem payload_lt (x : BitVec 64) (hk : k ≤ 21) : ((x &&& 0x7f) <<< k).toNat < 2 ^ 28 := by
  have hand : (x &&& 0x7f).toNat ≤ 0x7f := by
    rw [BitVec.toNat_and]
    exact Nat.and_le_right
  have hpow : 2 ^ k ≤ 2 ^ 21 := Nat.pow_le_pow_right (by decide) hk
  have hmul : (x &&& 0x7f).toNat * 2 ^ k ≤ 0x7f * 2 ^ 21 := Nat.mul_le_mul hand hpow
  rw [BitVec.toNat_shiftLeft, Nat.shiftLeft_eq]
  exact Nat.lt_of_le_of_lt (Nat.mod_le _ _) (Nat.lt_of_le_of_lt hmul (by decide))

theorem or_lt (hx : x.toNat < 2 ^ 28) (hy : y.toNat < 2 ^ 28) : (x ||| y).toNat < 2 ^ 28 := by
  rw [BitVec.toNat_or]
  exact Nat.or_lt_two_pow hx hy

theorem jmpTaken_small (hx : x.toNat < 2 ^ 28) (y : BitVec 64) :
    jmpTaken .jgt .imm x y 0xfffffff = false := by
  show decide (0xfffffff < x.toNat) = false
  rw [decide_eq_false_iff_not]
  omega

theorem mqtt_return (h : Runs 0 mqttListing c) (hpc : s.pc = BitVec.ofNat 16 15)
    (hlt : (s.reg 1).toNat < 2 ^ 28) :
    HaltsWithin (turn c) 9 s (.returned .exit (setReturn 0 0)) := by
  have hfirst : After (turn c) 1 s fun t => t.pc = BitVec.ofNat 16 17 ∧ t.reg 1 = s.reg 1 :=
    h.block 15 2 hpc rfl rfl rfl ⟨rfl, rfl⟩
  refine hfirst.seqWithin (n := 8) ?_
  rintro t ⟨htpc, h1⟩
  refine .head (h.falls 17 htpc rfl rfl (jmpTaken_small (h1.symm ▸ hlt) _)) ?_
  have hsecond : After (turn c) 2 { t with pc := BitVec.ofNat 16 18 } fun v =>
      v.pc = BitVec.ofNat 16 20 ∧ v.reg 1 = t.reg 1 ∧ v.reg 2 = 0 :=
    h.block 18 2 rfl rfl rfl rfl ⟨rfl, rfl, rfl⟩
  refine hsecond.seqWithin (n := 5) ?_
  rintro v ⟨hvpc, h1', h2⟩
  refine .head (h.falls 20 hvpc rfl rfl (jmpTaken_small (by rw [h1', h1]; exact hlt) _)) ?_
  have hthird : After (turn c) 3 { v with pc := BitVec.ofNat 16 21 } fun w =>
      w.pc = BitVec.ofNat 16 24 ∧ w.reg 0 = (0 : BitVec 64) <<< 32 ||| v.reg 2 :=
    h.block 21 3 rfl rfl rfl rfl ⟨rfl, rfl⟩
  refine hthird.seqWithin (n := 1) ?_
  rintro w ⟨hwpc, h0⟩
  have hexit := h.exit 24 hwpc rfl
  rw [h0, h2] at hexit
  exact .refl hexit

/-- Whatever number of bytes the search found, the value is small. -/
theorem mqtt_value (h : Runs 0 mqttListing c) {e : ℕ} (he : e < 4)
    (hpc : s.pc = BitVec.ofNat 16 13) (h3 : s.reg 3 = BitVec.ofNat 64 (e + 1)) :
    HaltsWithin (turn c) 80 s (.returned .exit (setReturn 0 0)) := by
  have hfirst : After (turn c) 1 s fun t => t.pc = BitVec.ofNat 16 14 ∧ t.reg 3 = s.reg 3 ∧
      t.reg 1 = s.reg 1 &&& 0x7f := h.block 13 1 hpc rfl rfl rfl ⟨rfl, rfl, rfl⟩
  refine hfirst.seqWithin (n := 79) ?_
  rintro t ⟨htpc, ht3, h1⟩
  rw [h3] at ht3
  have hlt1 : (t.reg 1).toNat < 2 ^ 28 := by
    have hlt := payload_lt (k := 0) (s.reg 1) (by decide)
    rwa [BitVec.shiftLeft_zero, ← h1] at hlt
  have hjne : jmpTaken .jne .imm (t.reg 3) (t.reg 0) 1 = decide (e + 1 ≠ 1) :=
    jmpTaken_jne_imm ht3 (by omega) (by decide)
  by_cases hone : e + 1 = 1
  · refine .head (n := 78) (h.falls 14 htpc rfl rfl (hjne.trans (decide_eq_false
      (not_not.mpr hone)))) ?_
    exact (mqtt_return (s := { t with pc := BitVec.ofNat 16 15 }) h rfl hlt1).le (by decide)
  refine .head (n := 78) (h.taken 14 25 htpc rfl rfl rfl (hjne.trans (decide_eq_true hone))) ?_
  have hsecond : After (turn c) 5 { t with pc := BitVec.ofNat 16 25 } fun v =>
      v.pc = BitVec.ofNat 16 30 ∧ v.reg 3 = t.reg 3 ∧ v.reg 1 = v.reg 4 ∧
        ∃ x : BitVec 64, v.reg 4 = (x &&& 0x7f) <<< 7 ||| t.reg 1 :=
    h.block 25 5 rfl rfl rfl rfl ⟨rfl, rfl, rfl, _, rfl⟩
  refine hsecond.seqWithin (n := 73) ?_
  rintro v ⟨hvpc, hv3, hv1, x, h4⟩
  rw [ht3] at hv3
  have hlt4 : (v.reg 4).toNat < 2 ^ 28 := h4 ▸ or_lt (payload_lt (k := 7) x (by decide)) hlt1
  have hjeq (i : ℕ) (hi : i < 2 ^ 31) :
      jmpTaken .jeq .imm (v.reg 3) (v.reg 0) (BitVec.ofNat 32 i) = decide (e + 1 = i) :=
    jmpTaken_jeq_imm hv3 (by omega) hi
  by_cases htwo : e + 1 = 2
  · have hltv : (v.reg 1).toNat < 2 ^ 28 := hv1.symm ▸ hlt4
    refine .head (n := 72) (h.taken 30 15 hvpc rfl rfl rfl ((hjeq 2 (by decide)).trans
      (decide_eq_true htwo))) ?_
    exact (mqtt_return (s := { v with pc := BitVec.ofNat 16 15 }) h rfl hltv).le (by decide)
  refine .head (h.falls 30 hvpc rfl rfl ((hjeq 2 (by decide)).trans (decide_eq_false htwo))) ?_
  have hthird : After (turn c) 4 { v with pc := BitVec.ofNat 16 31 } fun w =>
      w.pc = BitVec.ofNat 16 35 ∧ w.reg 3 = v.reg 3 ∧
        ∃ x : BitVec 64, w.reg 1 = (x &&& 0x7f) <<< 14 ||| v.reg 4 :=
    h.block 31 4 rfl rfl rfl rfl ⟨rfl, rfl, _, rfl⟩
  refine hthird.seqWithin (n := 68) ?_
  rintro w ⟨hwpc, hw3, x', hw1⟩
  have hltw : (w.reg 1).toNat < 2 ^ 28 := hw1 ▸ or_lt (payload_lt (k := 14) x' (by decide)) hlt4
  have hjeq' : jmpTaken .jeq .imm (w.reg 3) (w.reg 0) 3 = decide (e + 1 = 3) :=
    jmpTaken_jeq_imm (hw3.trans hv3) (by omega) (by decide)
  by_cases hthree : e + 1 = 3
  · refine .head (n := 67) (h.taken 35 15 hwpc rfl rfl rfl
      (hjeq'.trans (decide_eq_true hthree))) ?_
    exact (mqtt_return (s := { w with pc := BitVec.ofNat 16 15 }) h rfl hltw).le (by decide)
  refine .head (h.falls 35 hwpc rfl rfl (hjeq'.trans (decide_eq_false hthree))) ?_
  have hfourth : After (turn c) 5 { w with pc := BitVec.ofNat 16 36 } fun z =>
      z.pc = BitVec.ofNat 16 41 ∧ ∃ x : BitVec 64, z.reg 1 = (x &&& 0x7f) <<< 21 ||| w.reg 1 :=
    h.block 36 5 rfl rfl rfl rfl ⟨rfl, _, rfl⟩
  refine hfourth.seqWithin (n := 62) ?_
  rintro z ⟨hzpc, x'', hz1⟩
  have hltz : (z.reg 1).toNat < 2 ^ 28 := hz1 ▸ or_lt (payload_lt (k := 21) x'' (by decide)) hltw
  refine .head (n := 61) (h.jump 41 15 hzpc rfl rfl) ?_
  exact (mqtt_return (s := { z with pc := BitVec.ofNat 16 15 }) h rfl hltz).le (by decide)

theorem mqtt_pointers (mem : Mem) (c : Call)
    (h2 : x = BitVec.ofNat 64 (loadLE mem ((BitVec.ofNat 64 (loadLE mem
      ((c.mem.setWidth 64 + 0).setWidth 32) Size.w.bytes) + 0).setWidth 32) Size.dw.bytes)) :
    x.setWidth 32 = load32 mem (load32 mem c.mem) := by
  rw [h2, ofNat_loadLE_double, ofNat_loadLE_word, setWidth_add_setWidth _ _ (by decide),
    setWidth_add_setWidth _ _ (by decide)]
  have hzero (a : BitVec 32) : a + 0 = a := BitVec.add_zero a
  show load32 mem (load32 mem (c.mem + 0) + 0) = _
  rw [hzero, hzero]

/-- A test that is taken at the last byte. -/
theorem mqtt_test {prog : List Inst} {base : ℕ} {b : BitVec 8} {dst : BitVec 4}
    {offset : BitVec 16} (h : Runs base prog c) (i next found : ℕ)
    (hpc : s.pc = BitVec.ofNat 16 (base + i))
    (hi : prog[i]? = some (branchImm .jsgt dst 0xffffffff offset))
    (hregs : decide (dst.toNat < maxBpfExtReg ∧ (0 : BitVec 4).toNat < maxBpfExtReg) = true)
    (hoffset : offset = offsetTo (base + i) found) (hnext : base + (i + 1) = next)
    (hb : s.reg dst = b.signExtend 64) :
    turn c s = .cont { s with
      pc := if Continues b then BitVec.ofNat 16 next else BitVec.ofNat 16 found } := by
  have hcond : jmpTaken .jsgt .imm (s.reg dst) (s.reg 0) 0xffffffff = decide ¬Continues b := by
    rw [hb, jmpTaken_signed]
  subst hnext
  by_cases hmore : Continues b
  · rw [if_pos hmore]
    exact h.falls i hpc hi hregs (hcond.trans (decide_eq_false (not_not.mpr hmore)))
  · rw [if_neg hmore]
    exact h.taken i found hpc hi hregs hoffset (hcond.trans (decide_eq_true hmore))

theorem mqtt_start (h : Runs 0 mqttListing c) (reg : BitVec 4 → BitVec 64) (mem : Mem) :
    Within (turn c) 11 (initState c reg mem) fun t =>
      MqttAt mem (load32 mem (load32 mem c.mem)) t ∧
        if Continues (bytesFrom mem (load32 mem (load32 mem c.mem)) 0) then
          t.pc = BitVec.ofNat 16 7 ∧ True
        else t.pc = BitVec.ofNat 16 13 ∧ t.reg 3 = BitVec.ofNat 64 (0 + 1) := by
  have hloads : After (turn c) 3 (initState c reg mem) fun t => t.pc = BitVec.ofNat 16 3 ∧
      t.mem = mem ∧ t.reg 3 = 1 ∧
      t.reg 2 = BitVec.ofNat 64 (loadLE mem ((BitVec.ofNat 64 (loadLE mem
        ((c.mem.setWidth 64 + 0).setWidth 32) Size.w.bytes) + 0).setWidth 32) Size.dw.bytes) :=
    h.block 0 3 rfl rfl rfl rfl ⟨rfl, rfl, rfl, rfl⟩
  refine hloads.seqWithin (n := 8) ?_
  rintro s ⟨hpc, hmem, h3, h2⟩
  have hptr := mqtt_pointers mem c h2
  have hbyte : After (turn c) 3 s fun t => t.pc = BitVec.ofNat 16 6 ∧ t.mem = s.mem ∧
      t.reg 2 = s.reg 2 ∧ t.reg 3 = s.reg 3 ∧ t.reg 1 = (BitVec.ofNat 64 (loadLE s.mem
        ((s.reg 2 + BitVec.ofNat 64 0).setWidth 32) Size.b.bytes) <<< 0x38).sshiftRight 0x38 :=
    h.block 3 3 hpc rfl rfl rfl ⟨rfl, rfl, rfl, rfl, rfl⟩
  refine hbyte.seqWithin (n := 5) ?_
  rintro t ⟨htpc, htmem, ht2, ht3, ht1⟩
  rw [mqtt_signed hmem hptr 0] at ht1
  have hat (pc : BitVec 16) : MqttAt mem (load32 mem (load32 mem c.mem)) { t with pc := pc } :=
    ⟨htmem.trans hmem, ht2 ▸ hptr, ht1⟩
  refine .head (mqtt_test h 6 7 13 htpc rfl rfl rfl rfl ht1) (.refl ⟨hat _, ?_⟩)
  split
  · exact ⟨rfl, trivial⟩
  · exact ⟨rfl, ht3.trans h3⟩

def mqttEntry : ℕ → ℕ
  | 1 => 7
  | 2 => 42
  | 3 => 47
  | _ => 52

theorem mqtt_second (h : Runs 0 mqttListing c) (hs : MqttAt mem cur s)
    (hpc : s.pc = BitVec.ofNat 16 7) :
    Within (turn c) 8 s fun t => MqttAt mem cur t ∧
      if Continues (bytesFrom mem cur 1) then t.pc = BitVec.ofNat 16 42 ∧ True
      else t.pc = BitVec.ofNat 16 13 ∧ t.reg 3 = BitVec.ofNat 64 (1 + 1) := by
  have hbyte : After (turn c) 5 s fun t => t.pc = BitVec.ofNat 16 12 ∧ t.mem = s.mem ∧
      t.reg 1 = s.reg 1 ∧ t.reg 2 = s.reg 2 ∧ t.reg 3 = 2 ∧ t.reg 5 = 0 ∧
      t.reg 4 = (BitVec.ofNat 64 (loadLE s.mem
        ((s.reg 2 + BitVec.ofNat 64 1).setWidth 32) Size.b.bytes) <<< 0x38).sshiftRight 0x38 :=
    h.block 7 5 hpc rfl rfl rfl ⟨rfl, rfl, rfl, rfl, rfl, rfl, rfl⟩
  refine hbyte.seqWithin (n := 3) ?_
  rintro t ⟨htpc, htmem, ht1, ht2, ht3, ht5, ht4⟩
  rw [mqtt_signed hs.mem hs.ptr 1] at ht4
  have hat (pc : BitVec 16) : MqttAt mem cur { t with pc := pc } :=
    ⟨htmem.trans hs.mem, ht2 ▸ hs.ptr, ht1.trans hs.first⟩
  have hcond := jmpTaken_negative ht5 ht4
  by_cases hmore : Continues (bytesFrom mem cur 1)
  · refine .head (h.taken 12 42 htpc rfl rfl rfl (hcond.trans (decide_eq_true hmore)))
      (.refl ⟨hat _, ?_⟩)
    rw [if_pos hmore]
    exact ⟨rfl, trivial⟩
  · refine .head (h.falls 12 htpc rfl rfl (hcond.trans (decide_eq_false hmore)))
      (.refl ⟨hat _, ?_⟩)
    rw [if_neg hmore]
    exact ⟨rfl, ht3⟩

/-- A byte behind it: the registers tell its number, then it is tested. -/
theorem mqtt_probe {m i : ℕ} (h : Runs 0 mqttListing c) (next k : ℕ)
    (hs : MqttAt mem cur s)
    (hbyte : After (turn c) m s fun t => t.pc = BitVec.ofNat 16 (0 + i) ∧ t.mem = s.mem ∧
      t.reg 1 = s.reg 1 ∧ t.reg 2 = s.reg 2 ∧ t.reg 3 = x ∧
      t.reg 4 = (BitVec.ofNat 64 (loadLE s.mem
        ((s.reg 2 + BitVec.ofNat 64 k).setWidth 32) Size.b.bytes) <<< 0x38).sshiftRight 0x38)
    (hi : mqttListing[i]? = some (branchImm .jsgt 4 0xffffffff (offsetTo (0 + i) 13)))
    (hnext : 0 + (i + 1) = next) :
    Within (turn c) (m + 1) s fun t => MqttAt mem cur t ∧
      if Continues (bytesFrom mem cur k) then t.pc = BitVec.ofNat 16 next ∧ True
      else t.pc = BitVec.ofNat 16 13 ∧ t.reg 3 = x := by
  refine hbyte.seqWithin ?_
  rintro t ⟨htpc, htmem, ht1, ht2, ht3, ht4⟩
  rw [mqtt_signed hs.mem hs.ptr k] at ht4
  refine .head (mqtt_test h i next 13 htpc hi rfl rfl hnext ht4)
    (.refl ⟨⟨htmem.trans hs.mem, ht2 ▸ hs.ptr, ht1.trans hs.first⟩, ?_⟩)
  split
  · exact ⟨rfl, trivial⟩
  · exact ⟨rfl, ht3⟩

/-- Behind the fifth byte nothing is looked at: a length that goes on counts as
one of one byte. -/
theorem mqtt_fifth (h : Runs 0 mqttListing c) (hs : MqttAt mem cur s)
    (hpc : s.pc = BitVec.ofNat 16 52) :
    Within (turn c) 9 s fun t =>
      if Continues (bytesFrom mem cur 4) then
        MqttAt mem cur t ∧ t.pc = BitVec.ofNat 16 13 ∧ t.reg 3 = BitVec.ofNat 64 (0 + 1)
      else t.pc = BitVec.ofNat 16 24 ∧ t.reg 0 = mqttDrop := by
  have hbyte : After (turn c) 5 s fun t => t.pc = BitVec.ofNat 16 58 ∧ t.mem = s.mem ∧
      t.reg 0 = 0x1ffffffea ∧ t.reg 1 = s.reg 1 ∧ t.reg 2 = s.reg 2 ∧ t.reg 3 = 1 ∧
      t.reg 4 = (BitVec.ofNat 64 (loadLE s.mem
        ((s.reg 2 + BitVec.ofNat 64 4).setWidth 32) Size.b.bytes) <<< 0x38).sshiftRight 0x38 :=
    h.block 52 6 hpc rfl rfl rfl ⟨rfl, rfl, rfl, rfl, rfl, rfl, rfl⟩
  refine hbyte.seqWithin (n := 4) ?_
  rintro t ⟨htpc, htmem, h0, ht1, ht2, ht3, ht4⟩
  rw [mqtt_signed hs.mem hs.ptr 4] at ht4
  have htest := mqtt_test h 58 59 24 htpc rfl rfl rfl rfl ht4
  split
  · rename_i hmore
    rw [if_pos hmore] at htest
    have hat (pc : BitVec 16) : MqttAt mem cur { t with pc := pc } :=
      ⟨htmem.trans hs.mem, ht2 ▸ hs.ptr, ht1.trans hs.first⟩
    exact .head htest (.head (h.jump 59 13 rfl rfl rfl) (.refl ⟨hat _, rfl, ht3⟩))
  · rename_i hlast
    rw [if_neg hlast] at htest
    exact .head htest (.refl ⟨rfl, h0⟩)

theorem mqtt_frame (h : Runs 0 mqttListing c) :
    MqttFrame c mqttEntry 13 24 (fun _ _ => True) (fun e s => s.reg 3 = BitVec.ofNat 64 (e + 1))
      (setReturn 0 0) where
  start := mqtt_start h
  probe mem cur k s hk h4 hs hpc _ := by
    obtain rfl | rfl | rfl : k = 1 ∨ k = 2 ∨ k = 3 := by omega
    · exact mqtt_second h hs hpc
    · have hthird := mqtt_probe h 47 2 hs
        (h.block 42 4 hpc rfl rfl rfl ⟨rfl, rfl, rfl, rfl, rfl, rfl⟩) rfl rfl
      exact hthird.le (by decide)
    · have hfourth := mqtt_probe h 52 3 hs
        (h.block 47 4 hpc rfl rfl rfl ⟨rfl, rfl, rfl, rfl, rfl, rfl⟩) rfl rfl
      exact hfourth.le (by decide)
  fifth mem cur s hs hpc := (mqtt_fifth h hs hpc).le (by decide)
  value mem cur e s he hs hpc h3 := mqtt_value h he hpc h3
  exit s hpc := h.exit 24 hpc rfl

end Dynamic

/-! ### The second program -/

def mqttFixedSearch : List Inst :=
  [aluImm .mov 6 0, aluImm .mov 4 1, load .w 1 1 0, load .dw 2 1 0] ++ loadSigned 1 2 0 ++
    [aluImm .mov 3 0, branchImm .jsgt 1 0xffffffff (offsetTo 8 16), aluImm .mov 6 1] ++
    loadSigned 5 2 1 ++ [aluImm .mov 4 0, aluImm .mov 3 1, branchReg .jsgt 4 5 (offsetTo 15 67)]

/-- A loop takes two bytes a turn, and what is behind it the byte that is left. -/
def mqttFixedValue : List Inst :=
  [aluImm .and 1 0x7f, branchImm .jne 4 0 (offsetTo 17 59), aluImm .mov 4 7, aluImm .mov 5 1,
   aluReg .mov 0 3, aluImm .and 0 1, branchImm .jne 6 0 (offsetTo 22 50), aluImm .mov 5 0,
   aluImm .mov 4 7, aluImm .and 3 2, aluReg .mov 7 2, aluReg .add 7 5, load .b 6 7 2,
   aluImm .and 6 0x7f, aluReg .mov 8 4, aluImm .add 8 7, aluImm .lsh 8 0x20, aluImm .rsh 8 0x20,
   aluReg .lsh 6 8, load .b 7 7 1, aluImm .and 7 0x7f, aluReg .mov 8 4, aluImm .lsh 8 0x20,
   aluImm .rsh 8 0x20, aluReg .lsh 7 8, aluReg .add 7 1, aluReg .add 6 7, aluImm .add 4 0xe,
   aluImm .add 5 2, aluReg .mov 1 6, branchReg .jeq 3 5 (offsetTo 46 48),
   jumpAlways (offsetTo 47 26), aluImm .add 5 1, aluReg .mov 1 6,
   branchImm .jeq 0 0 (offsetTo 50 59), aluReg .add 2 5, load .b 2 2 0, aluImm .and 2 0x7f,
   aluImm .lsh 4 0x20, aluImm .rsh 4 0x20, aluReg .lsh 2 4, aluReg .add 2 1, aluReg .mov 1 2]

/-- It returns a drop, or an address. -/
def mqttFixedResult : List Inst :=
  [aluImm .lsh 1 0x20, aluImm .rsh 1 0x20, loadWide 0 0xffffffea, wideHigh 1,
   branchImm .jgt 1 0xfffffff (offsetTo 63 66), loadWide 0 0x22b, wideHigh 2, exitInst]

def mqttFixedListing : List Inst :=
  mqttFixedSearch ++ mqttFixedValue ++ mqttFixedResult ++
    ([aluImm .mov 3 2, aluImm .mov 4 0] ++ loadSigned 5 2 2 ++
      [aluImm .mov 6 0, branchImm .jsgt 5 0xffffffff (offsetTo 73 16)]) ++
    (aluImm .mov 3 3 :: loadSigned 5 2 3 ++
      [aluImm .mov 6 0, branchImm .jsgt 5 0xffffffff (offsetTo 79 16)]) ++
    [aluImm .mov 6 0, aluImm .mov 4 1, loadWide 0 0xffffffea, wideHigh 1] ++ loadSigned 5 2 4 ++
    [aluImm .mov 3 0, branchImm .jsgt 5 0xffffffff (offsetTo 88 66), jumpAlways (offsetTo 89 16)]

theorem disassemble_mqttFixed : disassemble zephyrCve10062Fixed = mqttFixedListing := rfl

section Fixed

variable {mem : Mem} {cur : BitVec 32} {s : State} {c : Call} {x y : BitVec 64} {k : ℕ}

theorem mqttFixed_return (h : Runs 0 mqttFixedListing c) (hpc : s.pc = BitVec.ofNat 16 59)
    (hlt : (s.reg 1).toNat < 2 ^ 28) :
    HaltsWithin (turn c) 5 s (.returned .exit (setReturn 2 0x22b)) := by
  have hcut : After (turn c) 3 s fun t => t.pc = BitVec.ofNat 16 63 ∧
      t.reg 1 = s.reg 1 <<< 32 >>> 32 := h.block 59 4 hpc rfl rfl rfl ⟨rfl, rfl⟩
  refine hcut.seqWithin (n := 2) ?_
  rintro t ⟨htpc, h1⟩
  have hlt1 : (t.reg 1).toNat < 2 ^ 28 := by
    rw [h1, show s.reg 1 <<< 32 >>> 32 = ((s.reg 1).setWidth 32).setWidth 64 from
      ushiftRight_shiftLeft (k := 32) _ (by decide), BitVec.toNat_setWidth, BitVec.toNat_setWidth]
    omega
  refine .head (h.falls 63 htpc rfl rfl (jmpTaken_small hlt1 _)) ?_
  have hwide : After (turn c) 1 { t with pc := BitVec.ofNat 16 64 } fun v =>
      v.pc = BitVec.ofNat 16 66 ∧ v.reg 0 = setReturn 2 0x22b :=
    h.block 64 2 rfl rfl rfl rfl ⟨rfl, rfl⟩
  refine hwide.seqWithin (n := 0) ?_
  rintro v ⟨hvpc, h0⟩
  rw [← h0]
  exact .refl (h.exit 66 hvpc rfl)

theorem payload_add_lt (x : BitVec 64) (hk : k ≤ 21) (hy : y.toNat < 2 ^ k) :
    (((x &&& 0x7f) <<< k) + y).toNat < 2 ^ (k + 7) := by
  have hand : (x &&& 0x7f).toNat ≤ 0x7f := by
    rw [BitVec.toNat_and]
    exact Nat.and_le_right
  have hpow : 2 ^ k ≤ 2 ^ 21 := Nat.pow_le_pow_right (by decide) hk
  have hmul : (x &&& 0x7f).toNat * 2 ^ k ≤ 0x7f * 2 ^ k := Nat.mul_le_mul_right _ hand
  rw [BitVec.toNat_add, BitVec.toNat_shiftLeft, Nat.shiftLeft_eq, Nat.pow_add]
  omega

theorem alu64_lsh (c : Call) (x : BitVec 64) (imm : BitVec 32) (hy : y.toNat < 64) :
    alu64 c .lsh .reg x y imm = .value (x <<< y.toNat) := if_pos hy

theorem mqttFixed_last (h : Runs 0 mqttFixedListing c) (hpc : s.pc = BitVec.ofNat 16 51)
    (h4 : s.reg 4 = BitVec.ofNat 64 k) (hk : k ≤ 21) (hlt : (s.reg 1).toNat < 2 ^ k) :
    HaltsWithin (turn c) 13 s (.returned .exit (setReturn 2 0x22b)) := by
  have hload : After (turn c) 5 s fun t => t.pc = BitVec.ofNat 16 56 ∧ t.reg 1 = s.reg 1 ∧
      t.reg 4 = s.reg 4 <<< 32 >>> 32 ∧ ∃ x : BitVec 64, t.reg 2 = x &&& 0x7f :=
    h.block 51 5 hpc rfl rfl rfl ⟨rfl, rfl, rfl, _, rfl⟩
  refine hload.seqWithin (n := 8) ?_
  rintro t ⟨htpc, h1, ht4, x, h2⟩
  have hcount : (t.reg 4).toNat = k := by
    rw [ht4, h4, show BitVec.ofNat 64 k <<< 32 >>> 32 =
      ((BitVec.ofNat 64 k).setWidth 32).setWidth 64 from
      ushiftRight_shiftLeft (k := 32) _ (by decide), BitVec.toNat_setWidth, BitVec.toNat_setWidth,
      BitVec.toNat_ofNat]
    omega
  have hshift : alu64 c .lsh .reg (t.reg 2) (t.reg 4) 0 = .value ((x &&& 0x7f) <<< k) := by
    rw [alu64_lsh _ _ _ (by omega), h2, hcount]
  refine .head (h.alu 56 htpc rfl rfl hshift) ?_
  have hsum : After (turn c) 2 { t with
      pc := BitVec.ofNat 16 57
      reg := (t.data.setReg 2 ((x &&& 0x7f) <<< k)).reg } fun v => v.pc = BitVec.ofNat 16 59 ∧
        v.reg 1 = ((x &&& 0x7f) <<< k) + t.reg 1 :=
    h.block 57 2 rfl rfl rfl rfl ⟨rfl, rfl⟩
  refine hsum.seqWithin (n := 5) ?_
  rintro v ⟨hvpc, hv1⟩
  refine mqttFixed_return h hvpc ?_
  have hsmall := payload_add_lt x hk hlt
  have hpow : 2 ^ (k + 7) ≤ 2 ^ 28 := Nat.pow_le_pow_right (by decide) (by omega)
  rw [hv1, h1]
  omega

theorem mqttFixed_counts (hy : y = 7) :
    ((y + 7) <<< 32 >>> 32).toNat = 14 ∧ (y <<< 32 >>> 32).toNat = 7 := by
  subst hy
  decide

theorem mqttFixed_round (h : Runs 0 mqttFixedListing c) (hpc : s.pc = BitVec.ofNat 16 26)
    (h4 : s.reg 4 = 7) (h5 : s.reg 5 = 0) (hlt : (s.reg 1).toNat < 2 ^ 7) :
    After (turn c) 20 s fun t => t.pc = BitVec.ofNat 16 46 ∧ t.reg 0 = s.reg 0 ∧
      t.reg 3 = s.reg 3 ∧ t.reg 4 = 21 ∧ t.reg 5 = 2 ∧ t.reg 6 = t.reg 1 ∧
      (t.reg 1).toNat < 2 ^ 21 := by
  obtain ⟨hhigh, hlow⟩ := mqttFixed_counts h4
  have hsecond : After (turn c) 8 s fun t => t.pc = BitVec.ofNat 16 34 ∧ t.reg 0 = s.reg 0 ∧
      t.reg 1 = s.reg 1 ∧ t.reg 3 = s.reg 3 ∧ t.reg 4 = s.reg 4 ∧ t.reg 5 = s.reg 5 ∧
      t.reg 8 = (s.reg 4 + 7) <<< 32 >>> 32 ∧ ∃ x : BitVec 64, t.reg 6 = x &&& 0x7f :=
    h.block 26 8 hpc rfl rfl rfl ⟨rfl, rfl, rfl, rfl, rfl, rfl, rfl, _, rfl⟩
  refine hsecond.seq (n := 12) ?_
  rintro t ⟨htpc, ht0, ht1, ht3, ht4, ht5, ht8, x, ht6⟩
  have hshift : alu64 c .lsh .reg (t.reg 6) (t.reg 8) 0 = .value ((x &&& 0x7f) <<< 14) := by
    rw [alu64_lsh _ _ _ (by rw [ht8, hhigh]; decide), ht6, ht8, hhigh]
  refine .head (h.alu 34 htpc rfl rfl hshift) ?_
  have hfirst : After (turn c) 5 { t with
      pc := BitVec.ofNat 16 35
      reg := (t.data.setReg 6 ((x &&& 0x7f) <<< 14)).reg } fun v => v.pc = BitVec.ofNat 16 40 ∧
        v.reg 0 = t.reg 0 ∧ v.reg 1 = t.reg 1 ∧ v.reg 3 = t.reg 3 ∧ v.reg 4 = t.reg 4 ∧
        v.reg 5 = t.reg 5 ∧ v.reg 6 = (x &&& 0x7f) <<< 14 ∧ v.reg 8 = t.reg 4 <<< 32 >>> 32 ∧
        ∃ x : BitVec 64, v.reg 7 = x &&& 0x7f :=
    h.block 35 5 rfl rfl rfl rfl ⟨rfl, rfl, rfl, rfl, rfl, rfl, rfl, rfl, _, rfl⟩
  refine hfirst.seq (n := 6) ?_
  rintro v ⟨hvpc, hv0, hv1, hv3, hv4, hv5, hv6, hv8, x', hv7⟩
  have hcount : (v.reg 8).toNat = 7 := by rw [hv8, ht4, hlow]
  have hshift' : alu64 c .lsh .reg (v.reg 7) (v.reg 8) 0 = .value ((x' &&& 0x7f) <<< 7) := by
    rw [alu64_lsh _ _ _ (by rw [hcount]; decide), hv7, hcount]
  refine .head (h.alu 40 hvpc rfl rfl hshift') ?_
  have hsum : After (turn c) 5 { v with
      pc := BitVec.ofNat 16 41
      reg := (v.data.setReg 7 ((x' &&& 0x7f) <<< 7)).reg } fun w => w.pc = BitVec.ofNat 16 46 ∧
        w.reg 0 = v.reg 0 ∧ w.reg 3 = v.reg 3 ∧ w.reg 4 = v.reg 4 + 0xe ∧ w.reg 5 = v.reg 5 + 2 ∧
        w.reg 6 = w.reg 1 ∧ w.reg 1 = v.reg 6 + (((x' &&& 0x7f) <<< 7) + v.reg 1) :=
    h.block 41 5 rfl rfl rfl rfl ⟨rfl, rfl, rfl, rfl, rfl, rfl, rfl⟩
  refine hsum.mono ?_
  rintro w ⟨hwpc, hw0, hw3, hw4, hw5, hw6, hw1⟩
  refine ⟨hwpc, by rw [hw0, hv0, ht0], by rw [hw3, hv3, ht3], ?_, ?_, hw6, ?_⟩
  · rw [hw4, hv4, ht4, h4]
    rfl
  · rw [hw5, hv5, ht5, h5]
    rfl
  · have hv1' : (v.reg 1).toNat < 2 ^ 7 := by rwa [hv1, ht1]
    have htwo := payload_add_lt (k := 7) x' (by decide) hv1'
    have hthree := payload_add_lt (k := 14) x (by decide) htwo
    rwa [hw1, hv6]

/-- How the registers tell which byte is the last. -/
structure MqttFixedTells (e : ℕ) (s : State) : Prop where
  index : s.reg 3 = BitVec.ofNat 64 e
  single : s.reg 4 = BitVec.ofNat 64 (if e = 0 then 1 else 0)
  double : s.reg 6 = BitVec.ofNat 64 (if e = 1 then 1 else 0)

theorem mqttFixed_parity {e : ℕ} (he : e < 4) :
    BitVec.ofNat 64 e &&& 1 = BitVec.ofNat 64 (e % 2) ∧
      (2 ≤ e → BitVec.ofNat 64 e &&& 2 = BitVec.ofNat 64 2) := by
  obtain rfl | rfl | rfl | rfl : e = 0 ∨ e = 1 ∨ e = 2 ∨ e = 3 := by omega
  all_goals decide

theorem mqttFixed_long (h : Runs 0 mqttFixedListing c) {e : ℕ} (htwo : 2 ≤ e) (he : e < 4)
    (hpc : s.pc = BitVec.ofNat 16 23) (h0 : s.reg 0 = BitVec.ofNat 64 (e % 2))
    (h3 : s.reg 3 = BitVec.ofNat 64 e) (hlt : (s.reg 1).toNat < 2 ^ 7) :
    HaltsWithin (turn c) 40 s (.returned .exit (setReturn 2 0x22b)) := by
  have hinit : After (turn c) 3 s fun t => t.pc = BitVec.ofNat 16 26 ∧ t.reg 0 = s.reg 0 ∧
      t.reg 1 = s.reg 1 ∧ t.reg 4 = 7 ∧ t.reg 5 = 0 ∧ t.reg 3 = s.reg 3 &&& 2 :=
    h.block 23 3 hpc rfl rfl rfl ⟨rfl, rfl, rfl, rfl, rfl, rfl⟩
  refine hinit.seqWithin (n := 37) ?_
  rintro t ⟨htpc, ht0, ht1, ht4, ht5, ht3⟩
  rw [h3, (mqttFixed_parity he).2 htwo] at ht3
  refine (mqttFixed_round h htpc ht4 ht5 (ht1.symm ▸ hlt)).seqWithin (n := 17) ?_
  rintro v ⟨hvpc, hv0, hv3, hv4, hv5, hv6, hv1⟩
  -- r3 holds the number of bytes that turns take, so there is no second turn
  have hends : jmpTaken .jeq .reg (v.reg 3) (v.reg 5) 0 = true := by
    rw [hv3, ht3, hv5]
    rfl
  refine .head (n := 16) (h.taken 46 48 hvpc rfl rfl rfl hends) ?_
  have hout : After (turn c) 2 { v with pc := BitVec.ofNat 16 48 } fun w =>
      w.pc = BitVec.ofNat 16 50 ∧ w.reg 0 = v.reg 0 ∧ w.reg 1 = v.reg 6 ∧ w.reg 4 = v.reg 4 :=
    h.block 48 2 rfl rfl rfl rfl ⟨rfl, rfl, rfl, rfl⟩
  refine hout.seqWithin (n := 14) ?_
  rintro w ⟨hwpc, hw0, hw1, hw4⟩
  have hw0' : w.reg 0 = BitVec.ofNat 64 (e % 2) := by rw [hw0, hv0, ht0, h0]
  have hltw : (w.reg 1).toNat < 2 ^ 21 := by rwa [hw1, hv6]
  have hjeq : jmpTaken .jeq .imm (w.reg 0) (w.reg 0) 0 = decide (e % 2 = 0) :=
    jmpTaken_jeq_imm hw0' (by omega) (by decide)
  by_cases heven : e % 2 = 0
  · refine .head (n := 13) (h.taken 50 59 hwpc rfl rfl rfl (hjeq.trans (decide_eq_true heven))) ?_
    have hsmall : (w.reg 1).toNat < 2 ^ 28 := Nat.lt_trans hltw (by decide)
    exact (mqttFixed_return (s := { w with pc := BitVec.ofNat 16 59 }) h rfl hsmall).le (by decide)
  · refine .head (n := 13) (h.falls 50 hwpc rfl rfl (hjeq.trans (decide_eq_false heven))) ?_
    exact mqttFixed_last (s := { w with pc := BitVec.ofNat 16 51 }) h rfl (hw4.trans hv4)
      (Nat.le_refl 21) hltw

/-- Whatever number of bytes the search found, an address is returned. -/
theorem mqttFixed_value (h : Runs 0 mqttFixedListing c) {e : ℕ} (he : e < 4)
    (hpc : s.pc = BitVec.ofNat 16 16) (htells : MqttFixedTells e s) :
    HaltsWithin (turn c) 80 s (.returned .exit (setReturn 2 0x22b)) := by
  have hfirst : After (turn c) 1 s fun t => t.pc = BitVec.ofNat 16 17 ∧ t.reg 3 = s.reg 3 ∧
      t.reg 4 = s.reg 4 ∧ t.reg 6 = s.reg 6 ∧ t.reg 1 = s.reg 1 &&& 0x7f :=
    h.block 16 1 hpc rfl rfl rfl ⟨rfl, rfl, rfl, rfl, rfl⟩
  refine hfirst.seqWithin (n := 79) ?_
  rintro t ⟨htpc, ht3, ht4, ht6, h1⟩
  have hlt1 : (t.reg 1).toNat < 2 ^ 7 := by
    rw [h1, BitVec.toNat_and]
    exact Nat.lt_of_le_of_lt Nat.and_le_right (by decide)
  have hsingle : jmpTaken .jne .imm (t.reg 4) (t.reg 0) 0 =
      decide ((if e = 0 then 1 else 0) ≠ 0) :=
    jmpTaken_jne_imm (ht4.trans htells.single) (by split <;> decide) (by decide)
  by_cases hzero : e = 0
  · rw [if_pos hzero] at hsingle
    refine .head (n := 78) (h.taken 17 59 htpc rfl rfl rfl hsingle) ?_
    have hsmall : (t.reg 1).toNat < 2 ^ 28 := Nat.lt_trans hlt1 (by decide)
    exact (mqttFixed_return (s := { t with pc := BitVec.ofNat 16 59 }) h rfl hsmall).le (by decide)
  rw [if_neg hzero] at hsingle
  refine .head (n := 78) (h.falls 17 htpc rfl rfl hsingle) ?_
  have hsecond : After (turn c) 4 { t with pc := BitVec.ofNat 16 18 } fun v =>
      v.pc = BitVec.ofNat 16 22 ∧ v.reg 1 = t.reg 1 ∧ v.reg 3 = t.reg 3 ∧ v.reg 6 = t.reg 6 ∧
        v.reg 4 = 7 ∧ v.reg 0 = t.reg 3 &&& 1 :=
    h.block 18 4 rfl rfl rfl rfl ⟨rfl, rfl, rfl, rfl, rfl, rfl⟩
  refine hsecond.seqWithin (n := 74) ?_
  rintro v ⟨hvpc, hv1, hv3, hv6, hv4, hv0⟩
  rw [ht3, htells.index, (mqttFixed_parity he).1] at hv0
  have hltv : (v.reg 1).toNat < 2 ^ 7 := hv1.symm ▸ hlt1
  have hdouble : jmpTaken .jne .imm (v.reg 6) (v.reg 0) 0 =
      decide ((if e = 1 then 1 else 0) ≠ 0) :=
    jmpTaken_jne_imm (hv6.trans (ht6.trans htells.double)) (by split <;> decide) (by decide)
  by_cases hone : e = 1
  · rw [if_pos hone] at hdouble
    refine .head (n := 73) (h.taken 22 50 hvpc rfl rfl rfl hdouble) ?_
    have hodd : jmpTaken .jeq .imm (v.reg 0) (v.reg 0) 0 = false := by
      rw [hv0, hone]
      rfl
    refine .head (n := 72) (h.falls 50 rfl rfl rfl hodd) ?_
    exact (mqttFixed_last (s := { v with pc := BitVec.ofNat 16 51 }) h rfl hv4 (k := 7) (by decide)
      hltv).le (by decide)
  · rw [if_neg hone] at hdouble
    refine .head (n := 73) (h.falls 22 hvpc rfl rfl hdouble) ?_
    exact (mqttFixed_long (s := { v with pc := BitVec.ofNat 16 23 }) h (by omega) he rfl hv0
      (hv3.trans (ht3.trans htells.index)) hltv).le (by decide)

def mqttFixedEntry : ℕ → ℕ
  | 1 => 9
  | 2 => 67
  | 3 => 74
  | _ => 80

theorem mqttFixed_start (h : Runs 0 mqttFixedListing c) (reg : BitVec 4 → BitVec 64) (mem : Mem) :
    Within (turn c) 11 (initState c reg mem) fun t =>
      MqttAt mem (load32 mem (load32 mem c.mem)) t ∧
        if Continues (bytesFrom mem (load32 mem (load32 mem c.mem)) 0) then
          t.pc = BitVec.ofNat 16 9 ∧ (1 = 3 → t.reg 4 = 0)
        else t.pc = BitVec.ofNat 16 16 ∧ MqttFixedTells 0 t := by
  have hloads : After (turn c) 4 (initState c reg mem) fun t => t.pc = BitVec.ofNat 16 4 ∧
      t.mem = mem ∧ t.reg 4 = 1 ∧ t.reg 6 = 0 ∧
      t.reg 2 = BitVec.ofNat 64 (loadLE mem ((BitVec.ofNat 64 (loadLE mem
        ((c.mem.setWidth 64 + 0).setWidth 32) Size.w.bytes) + 0).setWidth 32) Size.dw.bytes) :=
    h.block 0 4 rfl rfl rfl rfl ⟨rfl, rfl, rfl, rfl, rfl⟩
  refine hloads.seqWithin (n := 7) ?_
  rintro s ⟨hpc, hmem, h4, h6, h2⟩
  have hptr := mqtt_pointers mem c h2
  have hbyte : After (turn c) 4 s fun t => t.pc = BitVec.ofNat 16 8 ∧ t.mem = s.mem ∧
      t.reg 2 = s.reg 2 ∧ t.reg 3 = 0 ∧ t.reg 4 = s.reg 4 ∧ t.reg 6 = s.reg 6 ∧
      t.reg 1 = (BitVec.ofNat 64 (loadLE s.mem
        ((s.reg 2 + BitVec.ofNat 64 0).setWidth 32) Size.b.bytes) <<< 0x38).sshiftRight 0x38 :=
    h.block 4 4 hpc rfl rfl rfl ⟨rfl, rfl, rfl, rfl, rfl, rfl, rfl⟩
  refine hbyte.seqWithin (n := 3) ?_
  rintro t ⟨htpc, htmem, ht2, ht3, ht4, ht6, ht1⟩
  rw [mqtt_signed hmem hptr 0] at ht1
  have hat (pc : BitVec 16) : MqttAt mem (load32 mem (load32 mem c.mem)) { t with pc := pc } :=
    ⟨htmem.trans hmem, ht2 ▸ hptr, ht1⟩
  refine .head (mqtt_test h 8 9 16 htpc rfl rfl rfl rfl ht1) (.refl ⟨hat _, ?_⟩)
  split
  · exact ⟨rfl, fun h13 => absurd h13 (by decide)⟩
  · exact ⟨rfl, ht3, ht4.trans h4, ht6.trans h6⟩

theorem mqttFixed_second (h : Runs 0 mqttFixedListing c) (hs : MqttAt mem cur s)
    (hpc : s.pc = BitVec.ofNat 16 9) :
    Within (turn c) 8 s fun t => MqttAt mem cur t ∧
      if Continues (bytesFrom mem cur 1) then
        t.pc = BitVec.ofNat 16 67 ∧ (1 + 1 = 3 → t.reg 4 = 0)
      else t.pc = BitVec.ofNat 16 16 ∧ MqttFixedTells 1 t := by
  have hbyte : After (turn c) 6 s fun t => t.pc = BitVec.ofNat 16 15 ∧ t.mem = s.mem ∧
      t.reg 1 = s.reg 1 ∧ t.reg 2 = s.reg 2 ∧ t.reg 3 = 1 ∧ t.reg 4 = 0 ∧ t.reg 6 = 1 ∧
      t.reg 5 = (BitVec.ofNat 64 (loadLE s.mem
        ((s.reg 2 + BitVec.ofNat 64 1).setWidth 32) Size.b.bytes) <<< 0x38).sshiftRight 0x38 :=
    h.block 9 6 hpc rfl rfl rfl ⟨rfl, rfl, rfl, rfl, rfl, rfl, rfl, rfl⟩
  refine hbyte.seqWithin (n := 2) ?_
  rintro t ⟨htpc, htmem, ht1, ht2, ht3, ht4, ht6, ht5⟩
  rw [mqtt_signed hs.mem hs.ptr 1] at ht5
  have hat (pc : BitVec 16) : MqttAt mem cur { t with pc := pc } :=
    ⟨htmem.trans hs.mem, ht2 ▸ hs.ptr, ht1.trans hs.first⟩
  have hcond := jmpTaken_negative ht4 ht5
  by_cases hmore : Continues (bytesFrom mem cur 1)
  · refine .head (h.taken 15 67 htpc rfl rfl rfl (hcond.trans (decide_eq_true hmore)))
      (.refl ⟨hat _, ?_⟩)
    rw [if_pos hmore]
    exact ⟨rfl, fun h23 => absurd h23 (by decide)⟩
  · refine .head (h.falls 15 htpc rfl rfl (hcond.trans (decide_eq_false hmore)))
      (.refl ⟨hat _, ?_⟩)
    rw [if_neg hmore]
    exact ⟨rfl, ht3, ht4, ht6⟩

theorem mqttFixed_probe {m i : ℕ} (h : Runs 0 mqttFixedListing c) (next k e : ℕ)
    (hs : MqttAt mem cur s) (hk : 1 < e)
    (hbyte : After (turn c) m s fun t => t.pc = BitVec.ofNat 16 (0 + i) ∧ t.mem = s.mem ∧
      t.reg 1 = s.reg 1 ∧ t.reg 2 = s.reg 2 ∧ t.reg 3 = BitVec.ofNat 64 e ∧ t.reg 4 = 0 ∧
      t.reg 6 = 0 ∧ t.reg 5 = (BitVec.ofNat 64 (loadLE s.mem
        ((s.reg 2 + BitVec.ofNat 64 k).setWidth 32) Size.b.bytes) <<< 0x38).sshiftRight 0x38)
    (hi : mqttFixedListing[i]? = some (branchImm .jsgt 5 0xffffffff (offsetTo (0 + i) 16)))
    (hnext : 0 + (i + 1) = next) :
    Within (turn c) (m + 1) s fun t => MqttAt mem cur t ∧
      if Continues (bytesFrom mem cur k) then
        t.pc = BitVec.ofNat 16 next ∧ (e + 1 = 3 → t.reg 4 = 0)
      else t.pc = BitVec.ofNat 16 16 ∧ MqttFixedTells e t := by
  refine hbyte.seqWithin ?_
  rintro t ⟨htpc, htmem, ht1, ht2, ht3, ht4, ht6, ht5⟩
  rw [mqtt_signed hs.mem hs.ptr k] at ht5
  refine .head (mqtt_test h i next 16 htpc hi rfl rfl hnext ht5)
    (.refl ⟨⟨htmem.trans hs.mem, ht2 ▸ hs.ptr, ht1.trans hs.first⟩, ?_⟩)
  split
  · exact ⟨rfl, fun _ => ht4⟩
  · refine ⟨rfl, ht3, ?_, ?_⟩
    · rw [if_neg (by omega)]
      exact ht4
    · rw [if_neg (by omega)]
      exact ht6

theorem mqttFixed_fifth (h : Runs 0 mqttFixedListing c) (hs : MqttAt mem cur s)
    (hpc : s.pc = BitVec.ofNat 16 80) :
    Within (turn c) 10 s fun t =>
      if Continues (bytesFrom mem cur 4) then
        MqttAt mem cur t ∧ t.pc = BitVec.ofNat 16 16 ∧ MqttFixedTells 0 t
      else t.pc = BitVec.ofNat 16 66 ∧ t.reg 0 = mqttDrop := by
  have hbyte : After (turn c) 7 s fun t => t.pc = BitVec.ofNat 16 88 ∧ t.mem = s.mem ∧
      t.reg 0 = 0x1ffffffea ∧ t.reg 1 = s.reg 1 ∧ t.reg 2 = s.reg 2 ∧ t.reg 3 = 0 ∧
      t.reg 4 = 1 ∧ t.reg 6 = 0 ∧ t.reg 5 = (BitVec.ofNat 64 (loadLE s.mem
        ((s.reg 2 + BitVec.ofNat 64 4).setWidth 32) Size.b.bytes) <<< 0x38).sshiftRight 0x38 :=
    h.block 80 8 hpc rfl rfl rfl ⟨rfl, rfl, rfl, rfl, rfl, rfl, rfl, rfl, rfl⟩
  refine hbyte.seqWithin (n := 3) ?_
  rintro t ⟨htpc, htmem, h0, ht1, ht2, ht3, ht4, ht6, ht5⟩
  rw [mqtt_signed hs.mem hs.ptr 4] at ht5
  have htest := mqtt_test h 88 89 66 htpc rfl rfl rfl rfl ht5
  split
  · rename_i hmore
    rw [if_pos hmore] at htest
    have hat (pc : BitVec 16) : MqttAt mem cur { t with pc := pc } :=
      ⟨htmem.trans hs.mem, ht2 ▸ hs.ptr, ht1.trans hs.first⟩
    exact .head htest (.head (h.jump 89 16 rfl rfl rfl)
      (.refl ⟨hat _, rfl, ht3, ht4, ht6⟩))
  · rename_i hlast
    rw [if_neg hlast] at htest
    exact .head htest (.refl ⟨rfl, h0⟩)

theorem mqttFixed_frame (h : Runs 0 mqttFixedListing c) :
    MqttFrame c mqttFixedEntry 16 66 (fun k s => k = 3 → s.reg 4 = 0) MqttFixedTells
      (setReturn 2 0x22b) where
  start := mqttFixed_start h
  probe mem cur k s hk h4 hs hpc hbefore := by
    obtain rfl | rfl | rfl : k = 1 ∨ k = 2 ∨ k = 3 := by omega
    · exact mqttFixed_second h hs hpc
    · have hthird := mqttFixed_probe h 74 2 2 hs (by decide)
        (h.block 67 6 hpc rfl rfl rfl ⟨rfl, rfl, rfl, rfl, rfl, rfl, rfl, rfl⟩) rfl rfl
      exact hthird.le (by decide)
    · have hsame := hbefore rfl
      have hfourth := mqttFixed_probe h 80 3 3 hs (by decide)
        (h.block 74 5 hpc rfl rfl rfl ⟨rfl, rfl, rfl, rfl, rfl, hsame, rfl, rfl⟩) rfl rfl
      exact hfourth.le (by decide)
  fifth mem cur s hs hpc := mqttFixed_fifth h hs hpc
  value mem cur e s he hs hpc htells := mqttFixed_value h he hpc htells
  exit s hpc := h.exit 66 hpc rfl

end Fixed

/-! ### The two programs -/

/-- The first program returns what `filter` returns, on every memory. -/
theorem mqtt_exec (rest : List (BitVec 8)) (base : BitVec 32) (c : Call)
    (reg : BitVec 4 → BitVec 64) (mem : Mem) (hload : Loaded (zephyrCve10062 ++ rest) base c.vm mem)
    (hcheck : c.vm.boundsCheckEnabled = false) (buf : BufCtx)
    (hbuf : buf.cur = load32 mem (load32 mem c.mem)) :
    ebpfVmExec c reg mem = .stop (.returned .exit (mqttFilter mem buf)) := by
  obtain ⟨hruns, hexec⟩ := hload.runs hcheck disassemble_mqtt (by decide +kernel)
    (by decide +kernel)
  rw [hexec, (mqtt_frame hruns).exec reg hbuf]
  rcases mqttFilter_cases mem buf with hdrop | hpass
  · rw [if_pos hdrop, hdrop]
  · rw [hpass, if_neg (by decide)]

def mqttMem : Mem := memcpy (fun a => if a = 0 then 0x85 else 0) codeBase (zephyrCve10062 ++ [0])

theorem mqtt_exec_short :
    ebpfVmExec (callOf (zephyrCve10062 ++ [0])) (fun _ => 7) mqttMem =
      .stop (.returned .exit (mqttFilter mqttMem ⟨0, 9⟩)) :=
  mqtt_exec [0] codeBase (callOf (zephyrCve10062 ++ [0])) (fun _ => 7) mqttMem (callOf_loaded _ _)
    rfl ⟨0, 9⟩ (by decide +kernel)

/-- Behind the second program, at a fixed patch point, a call with a length of
five bytes returns zero and every other call its first argument. -/
theorem mqttFixed_calls (rest : List (BitVec 8)) (base : BitVec 32) (c : Call)
    (reg : BitVec 4 → BitVec 64) (f : FixedStackFrame)
    (hload : Loaded (zephyrCve10062Fixed ++ rest) base c.vm f.mem)
    (hcheck : c.vm.boundsCheckEnabled = false) (hframe : c.mem = f.sp) (hapart : f.Apart) :
    ∃ ret, ebpfVmExec c reg f.mem = .stop (.returned .exit ret) ∧
      (EndsAt (bytesFrom f.mem (load32 f.mem f.args.r0)) 4 →
        f.patchFunctionErrCode (some ret) = .returns 0) ∧
      (¬EndsAt (bytesFrom f.mem (load32 f.mem f.args.r0)) 4 →
        f.patchFunctionErrCode (some ret) =
          if f.args.r0 ≠ fixedOpPass then .returns f.args.r0 else .runsBody f.args) := by
  obtain ⟨hruns, hexec⟩ := hload.runs hcheck disassemble_mqttFixed (by decide +kernel)
    (by decide +kernel)
  obtain ⟨buf, hcur⟩ : ∃ buf : BufCtx, buf.cur = load32 f.mem f.args.r0 :=
    ⟨⟨load32 f.mem f.args.r0, 0⟩, rfl⟩
  have hr0 : f.args.r0 = load32 f.mem c.mem := by rw [hframe, FixedStackFrame.args]
  rw [← hcur]
  rw [hr0] at hcur
  refine ⟨_, (hexec reg).trans ((mqttFixed_frame hruns).exec reg hcur), fun hends => ?_,
    fun hends => ?_⟩
  · rw [if_pos (mqttFilter_drops hends)]
    exact f.patchFunctionErrCode_drop (by decide)
  · rw [mqttFilter_passes hends, if_neg (by decide)]
    exact f.patchFunctionErrCode_redirect hapart (by decide)

/-- A frame at zero in front of the second program, with the return address
`0x1000`. -/
def lowFrame : FixedStackFrame where
  mem := memcpy (fun a => if a = 17 then 0x10 else 0) codeBase (zephyrCve10062Fixed ++ [0])
  sp := 0

theorem lowFrame_apart : lowFrame.Apart := by
  have hlr : lowFrame.lr = 0x1000 := by decide +kernel
  rw [FixedStackFrame.Apart, hlr]
  decide

theorem mqttFixed_calls_low :
    ∃ ret, ebpfVmExec (callOf (zephyrCve10062Fixed ++ [0])) (fun _ => 7) lowFrame.mem =
        .stop (.returned .exit ret) ∧
      (EndsAt (bytesFrom lowFrame.mem (load32 lowFrame.mem lowFrame.args.r0)) 4 →
        lowFrame.patchFunctionErrCode (some ret) = .returns 0) ∧
      (¬EndsAt (bytesFrom lowFrame.mem (load32 lowFrame.mem lowFrame.args.r0)) 4 →
        lowFrame.patchFunctionErrCode (some ret) =
          if lowFrame.args.r0 ≠ fixedOpPass then .returns lowFrame.args.r0
          else .runsBody lowFrame.args) :=
  mqttFixed_calls [0] codeBase (callOf (zephyrCve10062Fixed ++ [0])) (fun _ => 7) lowFrame
    (callOf_loaded _ _) rfl rfl lowFrame_apart

end RapidPatch.Patches
