import RapidPatch.Support.Spans
import RapidPatch.Vm.Locality
import RapidPatch.Vm.Logic

/-!
A check of listings.

`staysIn` asks of a listing that it stays inside itself (`verified_of_staysIn`).
`knownTable` carries the registers that are known through a program once,
from its start down; it may be wrong behind a jump back, and `checked` looks
at every instruction again. A program that passes reads no register it has not
written (`initialised_of_checked`). A listing may pass and leave its code all
the same, if it stores into it (`verified_not_confined`); `KeepsCode` asks in
addition that it stores elsewhere, and then its runs are those of the listing
(`KeepsCode.runs`, and `Loaded.runs` where it does not store at all).
-/

namespace RapidPatch.Vm

open RapidPatch.Support

def allRegs : List (BitVec 4) := [0, 1, 2, 3, 4, 5, 6, 7, 8, 9, 10]

/-- What is known behind the instruction at an index is all that may be known at
its successors. -/
def narrow (table : List (List (BitVec 4))) (i : Inst) (pc : ℕ) : List (List (BitVec 4)) :=
  let behind := i.writes ++ table.getD pc []
  (successors i (BitVec.ofNat 16 pc)).foldl
    (fun t q => t.modify q.toNat (List.filter (· ∈ behind))) table

/-- The registers that are known at each index: r1 and r10 at the first. -/
def knownTable (prog : List Inst) : List (List (BitVec 4)) :=
  prog.zipIdx.foldl (fun table (i, pc) => narrow table i pc)
    ((List.replicate prog.length allRegs).set 0 [1, 10])

/-- The instruction at an index of a program of `n` stays inside it, and calls
these helpers at most. -/
def staysInAt (calls : List ℕ) (n : ℕ) (i : Inst) (pc : ℕ) : Bool :=
  i.regsInFile && (i.op ≠ .call || i.imm.toNat ∈ calls) && (i.op ≠ .lddw || pc + 1 < n) &&
    (successors i (BitVec.ofNat 16 pc)).all fun q => q.toNat < n

/-- A listing that stays inside itself. -/
def staysIn (calls : List ℕ) (prog : List Inst) : Bool :=
  0 < prog.length && prog.length < 2 ^ 16 &&
    prog.zipIdx.all fun (i, pc) => staysInAt calls prog.length i pc

/-- What is read at an index is known there, and what is known behind it was
known or is written. -/
def knownAt (table : List (List (BitVec 4))) (i : Inst) (pc : ℕ) : Bool :=
  i.reads.all (· ∈ table.getD pc []) &&
    (successors i (BitVec.ofNat 16 pc)).all fun q =>
      (table.getD q.toNat []).all (· ∈ i.writes ++ table.getD pc [])

/-- A listing that stays inside, calls nothing, and reads what is known only. -/
def checked (prog : List Inst) : Bool :=
  let table := knownTable prog
  staysIn [] prog && (table.getD 0 []).all (· ∈ [(1 : BitVec 4), 10]) &&
    prog.zipIdx.all fun (i, pc) => knownAt table i pc

variable {code : List (BitVec 8)} {prog : List Inst} {c : Call} {vm : EbpfVm} {pc : ℕ} {s t : State}

/-- What the registers at an index are known from. -/
def knownIn (prog : List Inst) (pc : ℕ) : List (BitVec 4) := (knownTable prog).getD pc []

/-! ### What passes -/

/-- The program of a listing, without anything behind its last instruction. -/
structure Lists (code : List (BitVec 8)) (prog : List Inst) : Prop where
  insts : disassemble code = prog
  count : instCount code = prog.length

theorem Lists.codeInst (h : Lists code prog) (hpc : pc < prog.length) :
    codeInst code pc = prog[pc] := by
  obtain ⟨rfl, -⟩ := h
  exact (disassemble_getElem hpc).symm

theorem Lists.of_length (hinsts : disassemble code = prog) (hlen : code.length = 8 * prog.length) :
    Lists code prog := ⟨hinsts, by rw [instCount, hlen]; omega⟩

section

variable {calls : List ℕ} (h : Lists code prog) (hin : staysIn calls prog = true)
  {reg : BitVec 4 → BitVec 64} {mem : Mem}

include hin

theorem staysIn_size : 0 < prog.length ∧ prog.length < 2 ^ 16 := by
  simp only [staysIn, Bool.and_eq_true, decide_eq_true_eq] at hin
  exact hin.1

include h

theorem staysInAt_of_staysIn (hpc : pc < instCount code) :
    staysInAt calls prog.length (codeInst code pc) pc = true := by
  rw [h.count] at hpc
  simp only [staysIn, Bool.and_eq_true, List.all_eq_true] at hin
  rw [h.codeInst hpc]
  exact hin.2 (prog[pc], pc) (List.mk_mem_zipIdx_iff_getElem?.mpr (List.getElem?_eq_getElem hpc))

theorem call_of_staysIn (hpc : pc < instCount code) (hop : (codeInst code pc).op = .call) :
    (codeInst code pc).imm.toNat ∈ calls := by
  have hat := staysInAt_of_staysIn h hin hpc
  simp only [staysInAt, Bool.and_eq_true, Bool.or_eq_true, decide_eq_true_eq] at hat
  exact hat.1.1.2.resolve_left fun hne => hne hop

variable (hcalls : ∀ n ∈ calls, n < maxExtFuncs ∧ (vm.extFuncs n).isSome = true)

include hcalls

/-- A listing that passes stays inside itself. -/
theorem verified_of_staysIn : Verified code vm := by
  refine ⟨h.count ▸ (staysIn_size hin).1, fun pc hpc => ?_⟩
  have hcall := call_of_staysIn h hin hpc
  have hat := staysInAt_of_staysIn h hin hpc
  rw [staysInAt, BitVec.ofNat_toNat, BitVec.setWidth_eq] at hat
  simp only [Bool.and_eq_true, Bool.or_eq_true, decide_eq_true_eq, List.all_eq_true] at hat
  obtain ⟨⟨⟨hregs, -⟩, hsecond⟩, hnext⟩ := hat
  refine ⟨hregs, fun hop => ?_, fun hop => ?_, fun t ht => ?_⟩
  · obtain ⟨hlt, hsome⟩ := hcalls _ (hcall hop)
    rw [Inst.callRegistered, hsome, decide_eq_true hlt]
    rfl
  · have hlt := hsecond.resolve_left fun hne => hne hop
    have hsize := (staysIn_size hin).2
    rw [h.count, BitVec.toNat_add, show (1 : BitVec 16).toNat = 1 from rfl]
    omega
  · rw [h.count]
    exact hnext t ht

end

section

variable (h : Lists code prog) (hcheck : checked prog = true)

include hcheck

theorem staysIn_of_checked : staysIn [] prog = true := by
  simp only [checked, Bool.and_eq_true] at hcheck
  exact hcheck.1.1

include h

theorem initialised_of_checked : Initialised code (knownIn prog) := by
  have hat {pc : ℕ} (hpc : pc < instCount code) :
      knownAt (knownTable prog) (codeInst code pc) pc = true := by
    rw [h.count] at hpc
    simp only [checked, Bool.and_eq_true, List.all_eq_true] at hcheck
    rw [h.codeInst hpc]
    exact hcheck.2 (prog[pc], pc)
      (List.mk_mem_zipIdx_iff_getElem?.mpr (List.getElem?_eq_getElem hpc))
  refine ⟨?_, ?_, ?_⟩
  · intro r hr
    simp only [checked, Bool.and_eq_true, List.all_eq_true, decide_eq_true_eq] at hcheck
    simpa using hcheck.1.2 r hr
  · intro pc hpc r hr
    have hknown := hat hpc
    simp only [knownAt, Bool.and_eq_true, List.all_eq_true, decide_eq_true_eq] at hknown
    exact hknown.1 r hr
  · intro pc hpc q hq r hr
    have hknown := hat hpc
    rw [knownAt, BitVec.ofNat_toNat, BitVec.setWidth_eq] at hknown
    simp only [Bool.and_eq_true, List.all_eq_true, decide_eq_true_eq] at hknown
    exact hknown.2 q hq r hr

/-- The result of such a program does not depend on the registers it starts
with, if it leaves itself as it is. -/
theorem exec_congr_of_checked (reg reg' : BitVec 4 → BitVec 64) (mem : Mem)
    (hkept : ∀ s, Reaches (step c) (initState c reg mem) s → Stands code c.vm s.mem) :
    ebpfVmExec c reg' mem = ebpfVmExec c reg mem := by
  have hin := staysIn_of_checked hcheck
  have hver : Verified code c.vm := verified_of_staysIn h hin (List.forall_mem_nil _)
  exact ebpfVmExec_congr hver (initialised_of_checked h hcheck) hkept (seesWithin_all code c.vm)
    (fun _ hpc hop => absurd (call_of_staysIn h hin hpc hop) List.not_mem_nil)
    (fun _ _ _ _ _ _ _ => trivial) fun _ _ => rfl

end

/-! ### Listings that store in one place -/

theorem execInst_reg {i : Inst} {r : BitVec 4} (h : execInst c i s = .cont t)
    (hr : r ∉ i.writes) : t.reg r = s.reg r := by
  have hset (hdst : r ∉ [i.dst]) (u : State) (v : BitVec 64) : (u.setReg i.dst v).reg r = u.reg r :=
    if_neg fun heq => hdst (List.mem_singleton.mpr heq)
  unfold execInst at h
  split at h
  · cases h
  · cases hop : i.op <;> simp only [Inst.writes, hop] at h hr
    case alu | alu64 =>
      obtain ⟨v, rfl⟩ := finishAlu_cont h
      exact hset hr s v
    case ldx size =>
      cases size <;> simp only [execLdx] at h
      case w =>
        cases h
        exact hset hr s _
      all_goals
        split at h
        · cases h
          exact hset hr s _
        · cases h
    case neg | neg64 | le | be | lddw =>
      cases h
      exact hset hr _ _
    case st | stx =>
      simp only [execStore] at h
      split at h
      · cases h
        rfl
      · cases h
    case call =>
      simp only [execCall] at h
      split at h
      · cases h
        exact if_neg fun heq => hr (List.mem_singleton.mpr heq)
      · cases h
    case jmp =>
      split at h <;> cases h <;> rfl
    case exit => cases h
    all_goals
      cases h
      rfl

/-- Where these registers are as given, the instruction changes nothing outside
a set. -/
def KeepsOutside (A : BitVec 32 → Prop) (c : Call) (regs : List (BitVec 4))
    (reg : BitVec 4 → BitVec 64) (i : Inst) : Prop :=
  ∀ s t, (∀ r ∈ regs, s.reg r = reg r) → execInst c i s = .cont t → ∀ a, ¬A a → t.mem a = s.mem a

section

variable {A : BitVec 32 → Prop} {i : Inst} {regs : List (BitVec 4)} {reg : BitVec 4 → BitVec 64}

theorem keepsOutside_of_not_stores (h : i.stores = false) : KeepsOutside A c regs reg i := by
  intro s t _ hexec a _
  rw [execInst_mem hexec (by rw [h]; decide)]

theorem keepsOutside_stx {size : Size} (hop : i.op = .stx size) (hdst : i.dst ∈ regs)
    (hA : ∀ a, InSpan (address (reg i.dst) i) size.bytes a → A a) :
    KeepsOutside A c regs reg i := by
  intro s t hreg hexec a ha
  unfold execInst at hexec
  split at hexec
  · cases hexec
  · simp only [hop, execStore, hreg _ hdst] at hexec
    split at hexec
    · cases hexec
      exact if_neg fun hin => ha (hA a hin)
    · cases hexec

theorem keepsOutside_call {f : ExtFunc} (hop : i.op = .call)
    (hf : c.vm.extFuncs i.imm.toNat = some f)
    (hA : ∀ x y z p q m a, ¬A a → (f x y z p q m).2 a = m a) : KeepsOutside A c regs reg i := by
  intro s t _ hexec a ha
  unfold execInst at hexec
  split at hexec
  · cases hexec
  · simp only [hop, execCall, hf] at hexec
    split at hexec
    · rename_i g hg
      split at hg
      · cases hg
        cases hexec
        exact hA _ _ _ _ _ _ a ha
      · cases hg
    · cases hexec

end

/-- What a program needs to stand as long as it runs: its listing stays inside,
and where it may store in memory the program is not. -/
structure KeepsCode (calls : List ℕ) (prog : List Inst) (A : BitVec 32 → Prop)
    (regs : List (BitVec 4)) (base : BitVec 32) (code : List (BitVec 8)) (c : Call)
    (reg : BitVec 4 → BitVec 64) : Prop where
  lists : Lists code prog
  stays : staysIn calls prog = true
  registered : ∀ n ∈ calls, n < maxExtFuncs ∧ (c.vm.extFuncs n).isSome = true
  writes : ∀ i ∈ prog, ∀ r ∈ regs, r ∉ i.writes
  keeps : ∀ i ∈ prog, KeepsOutside A c regs (initState c reg fun _ => 0).reg i
  apart : ∀ k < code.length, ¬A (base + BitVec.ofNat 32 k)

section

variable {calls : List ℕ} {rest : List (BitVec 8)} {base : BitVec 32} {mem m : Mem}
  {A : BitVec 32 → Prop} {regs : List (BitVec 4)} {reg : BitVec 4 → BitVec 64}

theorem Loaded.stands_of_agree (hload : Loaded (code ++ rest) base vm mem)
    (h : ∀ k < code.length, m (base + BitVec.ofNat 32 k) = mem (base + BitVec.ofNat 32 k)) :
    Stands code vm m := by
  intro n hn
  rw [hload.insts_eq]
  refine instAt_of_hasAt (fun k hk => ?_) hn
  have hkept := hload.hasAt.append.1 k hk
  simp only [Nat.zero_add, bytesFrom] at hkept ⊢
  rw [h k hk]
  exact hkept

namespace KeepsCode

variable (h : KeepsCode calls prog A regs base code c reg)
  (hload : Loaded (code ++ rest) base c.vm mem)

include h

theorem verified : Verified code c.vm := verified_of_staysIn h.lists h.stays h.registered

include hload

theorem reaches (hs : Reaches (step c) (initState c reg mem) s) :
    (∀ a, ¬A a → s.mem a = mem a) ∧ Stands code c.vm s.mem := by
  have hstands {u : State} (hu : ∀ a, ¬A a → u.mem a = mem a) : Stands code c.vm u.mem :=
    hload.stands_of_agree fun k hk => hu _ (h.apart k hk)
  -- the induction carries the index and the registers as well
  have hall : s.pc.toNat < instCount code ∧
      (∀ r ∈ regs, s.reg r = (initState c reg fun _ => 0).reg r) ∧
      ∀ a, ¬A a → s.mem a = mem a := by
    induction hs with
    | refl => exact ⟨h.verified.pos, fun _ _ => rfl, fun _ _ => rfl⟩
    | @tail u v hu hstep ih =>
        obtain ⟨hpc, hreg, hmem⟩ := ih
        have hlt : u.pc.toNat < prog.length := h.lists.count ▸ hpc
        have hfetch : fetch c u ∈ prog := by
          rw [(hstands hmem).fetch hpc, h.lists.codeInst hlt]
          exact List.getElem_mem hlt
        have hnext := (h.verified.insts u.pc hpc).staysInside.step (hstands hmem) hpc hstep
        obtain ⟨w, hw, -, rfl⟩ := step_cont hstep
        refine ⟨hnext, fun r hr => ?_, fun a ha => ?_⟩
        · exact (execInst_reg hw (h.writes _ hfetch r hr)).trans (hreg r hr)
        · exact (h.keeps _ hfetch { u with pc := u.pc + 1 } w hreg hw a ha).trans (hmem a ha)
  exact ⟨hall.2.2, hstands hall.2.2⟩

theorem confinedRun : ConfinedRun code c reg mem :=
  h.verified.confinedRun reg mem fun _ hs => (h.reaches hload hs).2

theorem runs (hcheck : c.vm.boundsCheckEnabled = false) :
    Runs 0 prog (c.withInsts (codeInst code)) ∧
      (∀ s, Reaches (step (c.withInsts (codeInst code))) (initState c reg mem) s ↔
        Reaches (step c) (initState c reg mem) s) ∧
      ebpfVmExec (c.withInsts (codeInst code)) reg mem = ebpfVmExec c reg mem := by
  have hstands : Stands code (c.withInsts (codeInst code)).vm mem := fun _ _ => rfl
  have hruns : Runs 0 prog (c.withInsts (codeInst code)) :=
    hstands.runs hcheck h.lists.insts (staysIn_size h.stays).2
  exact ⟨hruns, withInsts_of_fetches fun s hs =>
    (h.reaches hload hs).2.fetches (h.confinedRun hload s hs)⟩

end KeepsCode

section

variable (hlists : Lists code prog) (hapart : ∀ k < code.length, ¬A (base + BitVec.ofNat 32 k))

include hlists hapart

theorem keepsCode_of_not_stores (hin : staysIn [] prog = true)
    (hstores : prog.any Inst.stores = false) (reg : BitVec 4 → BitVec 64) :
    KeepsCode [] prog A [] base code c reg where
  lists := hlists
  stays := hin
  registered := List.forall_mem_nil _
  writes _ _ := List.forall_mem_nil _
  keeps i hi := keepsOutside_of_not_stores
    (Bool.eq_false_iff.mpr (List.any_eq_false.mp hstores i hi))
  apart := hapart

/-- A program that calls one helper and stores nothing itself changes what the
helper changes. -/
theorem keepsCode_of_call {n : ℕ} {f : ExtFunc} (hin : staysIn [n] prog = true)
    (hn : n < maxExtFuncs) (hf : c.vm.extFuncs n = some f)
    (hA : ∀ x y z p q m a, ¬A a → (f x y z p q m).2 a = m a)
    (hinsts : ∀ i ∈ prog, i.stores = false ∨ i.op = .call ∧ i.imm.toNat = n)
    (reg : BitVec 4 → BitVec 64) : KeepsCode [n] prog A [] base code c reg where
  lists := hlists
  stays := hin
  registered := by
    intro n' hn'
    obtain rfl := List.mem_singleton.mp hn'
    exact ⟨hn, by rw [hf]; rfl⟩
  writes _ _ := List.forall_mem_nil _
  keeps i hi := by
    rcases hinsts i hi with hnone | ⟨hop, rfl⟩
    · exact keepsOutside_of_not_stores hnone
    · exact keepsOutside_call hop hf hA
  apart := hapart

end

end

/-! ### Listings without stores -/

/-- A listing that stays inside itself and neither stores nor calls. -/
def readOnly (prog : List Inst) : Bool := staysIn [] prog && !prog.any Inst.stores

section

variable {rest : List (BitVec 8)} {base : BitVec 32} {mem : Mem}

theorem keepsCode_of_readOnly (h : Lists code prog) (hread : readOnly prog = true)
    (reg : BitVec 4 → BitVec 64) : KeepsCode [] prog (fun _ => False) [] base code c reg := by
  simp only [readOnly, Bool.and_eq_true, Bool.not_eq_true'] at hread
  exact keepsCode_of_not_stores h (fun _ _ => id) hread.1 hread.2 reg

/-- A program without stores runs as its listing does, whatever follows it. -/
theorem Loaded.runs (hload : Loaded (code ++ rest) base c.vm mem)
    (hcheck : c.vm.boundsCheckEnabled = false) (hprog : disassemble code = prog)
    (hlen : code.length = 8 * prog.length) (hread : readOnly prog = true) :
    Runs 0 prog (c.withInsts (codeInst code)) ∧
      ∀ reg, ebpfVmExec c reg mem = ebpfVmExec (c.withInsts (codeInst code)) reg mem := by
  have hlists : Lists code prog := .of_length hprog hlen
  have hkeeps (reg : BitVec 4 → BitVec 64) :
      KeepsCode [] prog (fun _ => False) [] base code c reg :=
    keepsCode_of_readOnly hlists hread reg
  have hruns (reg : BitVec 4 → BitVec 64) := (hkeeps reg).runs hload hcheck
  exact ⟨(hruns fun _ => 0).1, fun reg => (hruns reg).2.2.symm⟩

end

/-! ### A program that changes itself -/

/-- `sth [r1+10], 100`, `ja 0` and `exit`. -/
def changesJump : List (BitVec 8) :=
  [0x6a, 1, 10, 0, 100, 0, 0, 0, 0x05, 0, 0, 0, 0, 0, 0, 0, 0x95, 0, 0, 0, 0, 0, 0, 0]

/-- A call on this program that is given its own code as the memory. -/
def ownCode : Call := { callOf changesJump with mem := codeBase }

/-- It passes the check, and its jump leads out of it once its store has changed it. -/
theorem verified_not_confined :
    Verified changesJump ownCode.vm ∧
      ¬ConfinedRun changesJump ownCode (fun _ => 0)
        (memcpy (fun _ => 0) codeBase changesJump) := by
  have hlists : Lists changesJump (disassemble changesJump) := ⟨rfl, rfl⟩
  have hin : staysIn [] (disassemble changesJump) = true := by decide +kernel
  refine ⟨verified_of_staysIn hlists hin (List.forall_mem_nil _), fun hconfined => ?_⟩
  -- the jump leads behind the program
  have hreach := hconfined _ (.head rfl (.single rfl))
  exact absurd hreach.index (by decide)

end RapidPatch.Vm
