import RapidPatch.Patches.DestBytecode
import RapidPatch.Patches.LoopFree
import RapidPatch.Patches.MqttBytecode
import RapidPatch.Patches.TcpBytecode
import RapidPatch.Vm.Checker

/-!
The shipped programs that call no helper.

The interpreter does not compare its program counter with the length of the
program, starts with whatever its registers hold, and checks no access unless
it is told to. The programs that are shipped, as patches of the server, as
dynamic and fixed patches and as the mbedTLS check, hardly make use of it: they
stay inside their code, and all but one pass the check of listings, so what they
return depends on the memory alone. The exception is `freeRTOS_tcp_ip`, an
`EXIT` that returns what it finds in r0. Only one writes to memory, and that
must not be where its code is (`shipped_confined`).
-/

namespace RapidPatch.Patches

open RapidPatch.Support RapidPatch.Vm

/-- `code_cve_9989` of `ebpf_mbedtls_checks.c`. -/
def codeCve9989 : List (BitVec 8) :=
  [0x61, 0x12, 0x00, 0x00, 0x00, 0x00, 0x00, 0x00, 0x61, 0x22, 0x00, 0x00, 0x00, 0x00, 0x00, 0x00,
   0x71, 0x23, 0x00, 0x00, 0x00, 0x00, 0x00, 0x00, 0x67, 0x03, 0x00, 0x00, 0x08, 0x00, 0x00, 0x00,
   0x71, 0x24, 0x01, 0x00, 0x00, 0x00, 0x00, 0x00, 0x4f, 0x43, 0x00, 0x00, 0x00, 0x00, 0x00, 0x00,
   0x0f, 0x32, 0x00, 0x00, 0x00, 0x00, 0x00, 0x00, 0x61, 0x11, 0x04, 0x00, 0x00, 0x00, 0x00, 0x00,
   0xb7, 0x00, 0x00, 0x00, 0x01, 0x00, 0x00, 0x00, 0x2d, 0x12, 0x01, 0x00, 0x00, 0x00, 0x00, 0x00,
   0xb7, 0x00, 0x00, 0x00, 0x00, 0x00, 0x00, 0x00, 0x95, 0x00, 0x00, 0x00, 0x00, 0x00, 0x00, 0x00]

def codeCve9989Listing : List Inst :=
  [load .w 2 1 0, load .w 2 2 0, load .b 3 2 0, aluImm .lsh 3 8, load .b 4 2 1, aluReg .or 3 4,
   aluReg .add 2 3, load .w 1 1 4, aluImm .mov 0 1, branchReg .jgt 2 1 1, aluImm .mov 0 0, exitInst]

/-- `dummy_cve2` and `zephyr_cve1`. -/
def dummyCve2 : List (BitVec 8) :=
  [0xb7, 0x00, 0x00, 0x00, 0x03, 0x00, 0x00, 0x00, 0x95, 0x00, 0x00, 0x00, 0x00, 0x00, 0x00, 0x00]

def dummyCve2Listing : List Inst := [aluImm .mov 0 3, exitInst]

def freertosTcpIp : List (BitVec 8) := [0x95, 0x00, 0x00, 0x00, 0x00, 0x00, 0x00, 0x00]

def freertosTcpIpListing : List Inst := [exitInst]

inductive Shipped
  | loopFree (p : LoopFree)
  | zephyrCve10021Lr
  | amnesia33Cve17445
  | amnesia33Cve17445Sfi
  | freertosCve16524
  | zephyrCve16524
  | zephyrCve10062
  | zephyrCve10062Fixed
  | codeCve9989
  | dummyCve2
  | freertosTcpIp
  deriving DecidableEq

namespace Shipped

def code : Shipped → List (BitVec 8)
  | loopFree p => p.code
  | zephyrCve10021Lr => Patches.zephyrCve10021Lr
  | amnesia33Cve17445 => Patches.amnesia33Cve17445
  | amnesia33Cve17445Sfi => Patches.amnesia33Cve17445Sfi
  | freertosCve16524 => Patches.freertosCve16524
  | zephyrCve16524 => Patches.zephyrCve16524
  | zephyrCve10062 => Patches.zephyrCve10062
  | zephyrCve10062Fixed => Patches.zephyrCve10062Fixed
  | codeCve9989 => Patches.codeCve9989
  | dummyCve2 => Patches.dummyCve2
  | freertosTcpIp => Patches.freertosTcpIp

def listing : Shipped → List Inst
  | loopFree p => p.listing
  | zephyrCve10021Lr => zephyrCve10021LrListing
  | amnesia33Cve17445 => destListing
  | amnesia33Cve17445Sfi => destSfiListing
  | freertosCve16524 => freertosTcpListing
  | zephyrCve16524 => zephyrTcpListing
  | zephyrCve10062 => mqttListing
  | zephyrCve10062Fixed => mqttFixedListing
  | codeCve9989 => codeCve9989Listing
  | dummyCve2 => dummyCve2Listing
  | freertosTcpIp => freertosTcpIpListing

theorem disassemble_code (p : Shipped) : disassemble p.code = p.listing := by
  cases p with
  | loopFree p => exact p.disassemble_code
  | zephyrCve10021Lr => exact disassemble_10021Lr
  | amnesia33Cve17445 => exact disassemble_dest
  | amnesia33Cve17445Sfi => exact disassemble_destSfi
  | freertosCve16524 => exact disassemble_freertosTcp
  | zephyrCve16524 => exact disassemble_zephyrTcp
  | zephyrCve10062 => exact disassemble_mqtt
  | zephyrCve10062Fixed => exact disassemble_mqttFixed
  | codeCve9989 => rfl
  | dummyCve2 => rfl
  | freertosTcpIp => rfl

theorem length_code (p : Shipped) : p.code.length = 8 * p.listing.length := by
  cases p with
  | loopFree p => cases p <;> decide +kernel
  | _ => decide +kernel

theorem staysIn_listing (p : Shipped) : staysIn [] p.listing = true := by
  cases p with
  | loopFree p => cases p <;> decide +kernel
  | _ => decide +kernel

theorem checked_listing {p : Shipped} (hp : p ≠ freertosTcpIp) : checked p.listing = true := by
  cases p with
  | loopFree p => cases p <;> decide +kernel
  | freertosTcpIp => exact absurd rfl hp
  | _ => decide +kernel

theorem stores_listing {p : Shipped} (hp : p ≠ zephyrCve10021Lr) :
    p.listing.any Inst.stores = false := by
  cases p with
  | loopFree p => cases p <;> decide +kernel
  | zephyrCve10021Lr => exact absurd rfl hp
  | _ => decide +kernel

/-- Where a program may store. -/
def StoresTo (ctx a : BitVec 32) : Shipped → Prop
  | zephyrCve10021Lr => InSpan (ctx + 20) 4 a
  | _ => False

theorem keepsCode (p : Shipped) {base : BitVec 32} {c : Call} (reg : BitVec 4 → BitVec 64)
    (hapart : ∀ k < p.code.length, ¬StoresTo c.mem (base + BitVec.ofNat 32 k) p) :
    ∃ regs, KeepsCode [] p.listing (StoresTo c.mem · p) regs base p.code c reg := by
  by_cases hp : p = zephyrCve10021Lr
  · subst hp
    exact ⟨[1], zephyrCve10021Lr_keeps reg hapart⟩
  · have hlists : Lists p.code p.listing := .of_length p.disassemble_code p.length_code
    exact ⟨[], keepsCode_of_not_stores hlists hapart p.staysIn_listing (stores_listing hp) reg⟩

end Shipped

/-- A shipped program that calls no helper, with less than an instruction behind
it in its buffer: whatever the registers and the memory hold and whether accesses
are checked or not, it stays inside its code, and it changes no memory but, in one
case, the saved link register; that must not be where its code is. Its result
does not depend on the registers, except for the program that is nothing but an
`EXIT`. -/
theorem shipped_confined (p : Shipped) (rest : List (BitVec 8)) (hrest : rest.length < 8)
    (base : BitVec 32) (c : Call) (reg reg' : BitVec 4 → BitVec 64) (mem : Mem)
    (hload : Loaded (p.code ++ rest) base c.vm mem)
    (hapart : ∀ k < p.code.length, ¬p.StoresTo c.mem (base + BitVec.ofNat 32 k)) :
    ConfinedRun (p.code ++ rest) c reg mem ∧
      (∀ s, Reaches (step c) (initState c reg mem) s →
        ∀ a, ¬p.StoresTo c.mem a → s.mem a = mem a) ∧
      (p ≠ .freertosTcpIp → ebpfVmExec c reg' mem = ebpfVmExec c reg mem) ∧
      (p = .freertosTcpIp → ebpfVmExec c reg mem = .stop (.returned .exit (reg 0))) := by
  obtain ⟨regs, hkeeps⟩ := p.keepsCode reg hapart
  have hcount : instCount (p.code ++ rest) = instCount p.code := by
    rw [instCount, instCount, List.length_append, p.length_code]
    omega
  refine ⟨?_, fun s hs => (hkeeps.reaches hload hs).1, fun hp => ?_, ?_⟩
  · rw [ConfinedRun, hcount]
    exact hkeeps.confinedRun hload
  · exact exec_congr_of_checked hkeeps.lists (Shipped.checked_listing hp) reg reg' mem
      fun s hs => (hkeeps.reaches hload hs).2
  · rintro rfl
    have hfetch : fetch c (initState c reg mem) = codeInst freertosTcpIp 0 :=
      (hkeeps.reaches hload (.refl _)).2.fetch Nat.one_pos
    have hstop : step c (initState c reg mem) = .stop (.returned .exit (reg 0)) := by
      rw [step, hfetch]
      rfl
    exact run_succ_stop hstop

/-- Memory with a program, and the byte `0x41` everywhere else. -/
def fortyOnes (p : Shipped) : Mem := memcpy (fun _ => 0x41) codeBase (p.code ++ [0])

theorem shipped_confined_lr :
    ConfinedRun (zephyrCve10021Lr ++ [0]) (callOf (zephyrCve10021Lr ++ [0])) (fun _ => 0)
        (fortyOnes .zephyrCve10021Lr) ∧
      (∀ s, Reaches (step (callOf (zephyrCve10021Lr ++ [0])))
          (initState (callOf (zephyrCve10021Lr ++ [0])) (fun _ => 0)
            (fortyOnes .zephyrCve10021Lr)) s →
        ∀ a, ¬InSpan 20 4 a → s.mem a = fortyOnes .zephyrCve10021Lr a) ∧
      ebpfVmExec (callOf (zephyrCve10021Lr ++ [0])) (fun _ => 7) (fortyOnes .zephyrCve10021Lr) =
        ebpfVmExec (callOf (zephyrCve10021Lr ++ [0])) (fun _ => 0)
          (fortyOnes .zephyrCve10021Lr) := by
  have hapart : ∀ k < zephyrCve10021Lr.length,
      ¬InSpan ((0 : BitVec 32) + 20) 4 (codeBase + BitVec.ofNat 32 k) := by
    unfold InSpan
    decide +kernel
  obtain ⟨hconfined, hmem, hsame, -⟩ := shipped_confined .zephyrCve10021Lr [0] (by decide) codeBase
    (callOf (zephyrCve10021Lr ++ [0])) (fun _ => 0) (fun _ => 7) (fortyOnes .zephyrCve10021Lr)
    (callOf_loaded _ _) hapart
  exact ⟨hconfined, hmem, hsame (by decide)⟩

end RapidPatch.Patches
