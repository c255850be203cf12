import RapidPatch.Patches.MqttLength
import RapidPatch.Support.Machine

/-!
The patch of the TCP option parser.

The filter walks the options of a segment and drops the segment if a maximum
segment size in it is zero. But it looks at one MSS option only: behind the
first its loop is left by `break`, and the statement that would have advanced to
the next option is commented out. So a zero segment size is caught where it is
the first (`tcp_patch_iff`), and a segment that puts another size before it
passes.
-/

namespace RapidPatch.Patches

open RapidPatch.Support RapidPatch.Hotpatch

/-! ### The filter -/

def tcpOptEnd : BitVec 8 := 0

def tcpOptNoop : BitVec 8 := 1

def tcpOptMss : BitVec 8 := 2

def tcpOptWsopt : BitVec 8 := 3

def tcpOptMssLen : ℕ := 4

def tcpOptWsoptLen : ℕ := 3

/-- `p[0]` of a pointer of the interpreter. -/
def byteAt (mem : Mem) (p : ℕ) : BitVec 8 := mem (BitVec.ofNat 32 p)

def usChar2u16 (mem : Mem) (apChr : ℕ) : BitVec 16 :=
  (((byteAt mem apChr).setWidth 32 <<< 8) ||| (byteAt mem (apChr + 1)).setWidth 32).setWidth 16

/-- The loop of `filter` of `freertos_cve_2018_16524.ebpf.c` over the options
before `pucLast`. It stops with what the filter returns. -/
def tcpFilterStep (mem : Mem) (pucLast pucPtr : ℕ) : Next ℕ (BitVec 64) :=
  if ¬pucPtr < pucLast then .stop (setReturn 0 0)
  else if byteAt mem pucPtr = tcpOptEnd then .stop (setReturn 0 0)
  else if byteAt mem pucPtr = tcpOptNoop then .cont (pucPtr + 1)
  else if byteAt mem pucPtr = tcpOptWsopt ∧ (byteAt mem (pucPtr + 1)).toNat = tcpOptWsoptLen then
    .cont (pucPtr + tcpOptWsoptLen)
  else if byteAt mem pucPtr = tcpOptMss ∧ (byteAt mem (pucPtr + 1)).toNat = tcpOptMssLen then
    if usChar2u16 mem (pucPtr + 2) = 0 then .stop (setReturn 1 0) else .stop (setReturn 0 0)
  else
    let len := (byteAt mem (pucPtr + 1)).toNat
    if len = 0 then .stop (setReturn 0 0) else .cont (pucPtr + len)

/-- `pxTCPPacket`: the filter reads one byte at `r1 + 24`. -/
def pxTCPPacket (mem : Mem) (r1 : BitVec 32) : ℕ := (mem (r1 + 24)).toNat

def pxTCPHeader (mem : Mem) (r1 : BitVec 32) : ℕ := pxTCPPacket mem r1 + 34

/-- `pucPtr` at the start of the loop. -/
def tcpOptions (mem : Mem) (r1 : BitVec 32) : ℕ := pxTCPHeader mem r1 + 20

/-- `pucLast`. -/
def tcpOptionsEnd (mem : Mem) (r1 : BitVec 32) : ℕ :=
  (tcpOptions mem r1 + ((byteAt mem (pxTCPHeader mem r1 + 12) >>> 4).toNat - 5 : ℤ) * 4).toNat

/-- What the filter returns for a frame. -/
def TcpFilterReturns (mem : Mem) (r1 : BitVec 32) (ret : BitVec 64) : Prop :=
  ∃ n, run (tcpFilterStep mem (tcpOptionsEnd mem r1)) n (tcpOptions mem r1) = .stop ret

/-! ### The walk -/

/-- An option as the walk sees it: the end of the list, an option to be
skipped, or a maximum segment size. -/
inductive TcpOption
  | fin
  | skip (n : ℕ) (hn : 0 < n)
  | mss (value : BitVec 16)
  deriving DecidableEq

/-- The option at a pointer. One that has the length zero ends the list. -/
def tcpOption (mem : Mem) (p : ℕ) : TcpOption :=
  if byteAt mem p = tcpOptEnd then .fin
  else if byteAt mem p = tcpOptNoop then .skip 1 Nat.one_pos
  else if byteAt mem p = tcpOptWsopt ∧ (byteAt mem (p + 1)).toNat = tcpOptWsoptLen then
    .skip 3 (by decide)
  else if byteAt mem p = tcpOptMss ∧ (byteAt mem (p + 1)).toNat = tcpOptMssLen then
    .mss (usChar2u16 mem (p + 2))
  else if h : (byteAt mem (p + 1)).toNat = 0 then .fin
  else .skip (byteAt mem (p + 1)).toNat (Nat.pos_of_ne_zero h)

/-- The segment sizes that the walk from `p` reaches before `last`. -/
def mssValues (mem : Mem) (last p : ℕ) : List (BitVec 16) :=
  if p < last then
    match tcpOption mem p with
    | .fin => []
    | .skip n _ => mssValues mem last (p + n)
    | .mss value => value :: mssValues mem last (p + 4)
  else []
termination_by last - p

/-- The loop of the filter ends, and the call is dropped exactly if the walk
reaches a zero segment size. -/
def CatchesZeroMss (mem : Mem) (last p : ℕ) : Prop :=
  ∃ n ret, run (tcpFilterStep mem last) n p = .stop ret ∧
    (filterOp ret = 1 ↔ 0 ∈ mssValues mem last p)

section

variable {mem : Mem} {last p n : ℕ}

/-- One turn of the filter is one option of the walk. -/
theorem tcpFilterStep_eq (hlt : p < last) :
    tcpFilterStep mem last p =
      match tcpOption mem p with
      | .fin => .stop (setReturn 0 0)
      | .skip n _ => .cont (p + n)
      | .mss value => if value = 0 then .stop (setReturn 1 0) else .stop (setReturn 0 0) := by
  rw [tcpFilterStep, if_neg (not_not.mpr hlt), tcpOption]
  by_cases hend : byteAt mem p = tcpOptEnd
  · rw [if_pos hend, if_pos hend]
  rw [if_neg hend, if_neg hend]
  by_cases hnoop : byteAt mem p = tcpOptNoop
  · rw [if_pos hnoop, if_pos hnoop]
  rw [if_neg hnoop, if_neg hnoop]
  by_cases hws : byteAt mem p = tcpOptWsopt ∧ (byteAt mem (p + 1)).toNat = tcpOptWsoptLen
  · rw [if_pos hws, if_pos hws]
    rfl
  rw [if_neg hws, if_neg hws]
  by_cases hmss : byteAt mem p = tcpOptMss ∧ (byteAt mem (p + 1)).toNat = tcpOptMssLen
  · rw [if_pos hmss, if_pos hmss]
  rw [if_neg hmss, if_neg hmss]
  by_cases hzero : (byteAt mem (p + 1)).toNat = 0
  · rw [dif_pos hzero]
    exact if_pos hzero
  · rw [dif_neg hzero]
    exact if_neg hzero

/-- The filter looks at the first segment size. -/
theorem tcpFilter_run (mem : Mem) (last p : ℕ) :
    ∃ n, run (tcpFilterStep mem last) n p =
      .stop (if (mssValues mem last p).head? = some 0 then setReturn 1 0 else setReturn 0 0) := by
  fun_induction mssValues mem last p with
  | case1 p hlt hopt =>
      refine ⟨1, run_succ_stop ?_⟩
      rw [tcpFilterStep_eq hlt, hopt]
      rfl
  | case2 p hlt k hk hopt ih =>
      obtain ⟨n, hn⟩ := ih
      refine ⟨n + 1, (run_succ_cont ?_).trans hn⟩
      rw [tcpFilterStep_eq hlt, hopt]
  | case3 p hlt value hopt ih =>
      refine ⟨1, run_succ_stop ?_⟩
      rw [tcpFilterStep_eq hlt, hopt, List.head?_cons]
      simp only [Option.some.injEq]
      exact (apply_ite Next.stop _ _ _).symm
  | case4 p hge => exact ⟨1, run_succ_stop (if_pos hge)⟩

/-- Whether the filter drops the call, whatever turns it needs for it. -/
theorem tcpFilter_op {ret : BitVec 64} (hrun : run (tcpFilterStep mem last) n p = .stop ret) :
    filterOp ret = 1 ↔ (mssValues mem last p).head? = some 0 := by
  obtain ⟨m, hm⟩ := tcpFilter_run mem last p
  have hret : ret = if (mssValues mem last p).head? = some 0 then setReturn 1 0
      else setReturn 0 0 := by
    have hmax := (run_stop_mono hrun (Nat.le_max_left n m)).symm.trans
      (run_stop_mono hm (Nat.le_max_right n m))
    exact Next.stop.inj hmax
  by_cases hhead : (mssValues mem last p).head? = some 0
  · rw [if_pos hhead] at hret
    exact iff_of_true (by rw [hret]; decide) hhead
  · rw [if_neg hhead] at hret
    exact iff_of_false (by rw [hret]; decide) hhead

end

/-- The loop ends on every list of options. It catches a zero segment size
exactly where there is none, or the first is zero. -/
theorem tcp_patch_iff (mem : Mem) (last p : ℕ) :
    (∃ n ret, run (tcpFilterStep mem last) n p = .stop ret) ∧
      (CatchesZeroMss mem last p ↔
        (0 ∈ mssValues mem last p → (mssValues mem last p).head? = some 0)) := by
  obtain ⟨n, hn⟩ := tcpFilter_run mem last p
  refine ⟨⟨n, _, hn⟩, ?_, fun hfirst => ?_⟩
  · rintro ⟨m, ret, hm, hop⟩ hzero
    exact (tcpFilter_op hm).mp (hop.mpr hzero)
  · exact ⟨n, _, hn, (tcpFilter_op hn).trans ⟨List.mem_of_mem_head?, hfirst⟩⟩

def twoSizes : Mem := fun a =>
  if a = 0 then 2 else if a = 1 then 4 else if a = 2 then 5 else if a = 3 then 180
  else if a = 4 then 2 else if a = 5 then 4 else 0

theorem twoSizes_passes : ¬CatchesZeroMss twoSizes 8 0 := by
  rintro ⟨n, ret, hrun, hop⟩
  have hstop : tcpFilterStep twoSizes 8 0 = .stop (setReturn 0 0) := by decide
  have hfirst : tcpOption twoSizes 0 = .mss 1460 := by decide
  have hsecond : tcpOption twoSizes 4 = .mss 0 := by decide
  have hmem : 0 ∈ mssValues twoSizes 8 0 := by
    rw [mssValues, if_pos (by decide), hfirst]
    refine List.mem_cons_of_mem _ ?_
    rw [mssValues, if_pos (by decide), hsecond]
    exact List.mem_cons_self
  have hdrop := hop.mpr hmem
  cases n with
  | zero => cases hrun
  | succ n =>
      rw [run_succ_stop hstop] at hrun
      cases hrun
      exact absurd hdrop (by decide)

end RapidPatch.Patches
