import RapidPatch.Support.Logic
import RapidPatch.Vm.Fetch

/-!
Rules for programs of the interpreter.

`turn` is one iteration without the check at its bottom. No case of the switch
looks at the tick counter, so a run of turns is a run of the loop as long as
the budget lasts, and the two ends of a run are two rules: a program that stops
within the budget returns its result (`ebpfVmExec_of_halts`), and one that is
still running behind it returns the budget's (`ebpfVmExec_of_after`).

A program is verified by its basic blocks. `execBlock` is what the instructions
of a block make of the registers and of memory. It does not mention the program
counter, and for a given block it is computed, so what a block does is read off
by `rfl`. `Runs.block` puts it into a run, and `Runs.branch`, `Runs.jump` and
`Runs.exit` are the rules for what stands between the blocks.
-/

namespace RapidPatch.Vm

open RapidPatch.Support

/-! ### The loop without its budget -/

/-- One iteration without the check at its bottom. -/
def turn (c : Call) (s : State) : Next State Outcome :=
  execInst c (fetch c s) { s with pc := s.pc + 1 }

section Budget

variable {c : Call} {i : Inst} {s t : State} {o : Outcome} {n k : ℕ}

/-- The switch does not look at the tick counter. -/
theorem execInst_withTick (c : Call) (i : Inst) (s : State) (k : ℕ) :
    execInst c i { s with tick := k } =
      match execInst c i s with
      | .cont t => .cont { t with tick := k }
      | .stop o => .stop o := by
  unfold execInst
  split
  · rfl
  · cases hop : i.op <;> simp only
    case alu op src => cases alu32 c op src (s.reg i.dst) (s.reg i.src) i.imm <;> rfl
    case alu64 op src => cases alu64 c op src (s.reg i.dst) (s.reg i.src) i.imm <;> rfl
    case ldx size =>
      cases size <;> simp only [execLdx]
      case w => rfl
      all_goals split <;> rfl
    case st =>
      simp only [execStore]
      split <;> rfl
    case stx =>
      simp only [execStore]
      split <;> rfl
    case call =>
      simp only [execCall]
      split <;> rfl
    case jmp => split <;> rfl
    all_goals rfl

theorem step_of_turn (h : turn c s = .cont t) (hk : k ≤ maxIters) :
    step c { s with tick := k } = .cont { t with tick := k + 1 } := by
  have hexec := execInst_withTick c (fetch c s) { s with pc := s.pc + 1 } k
  rw [show execInst c (fetch c s) { s with pc := s.pc + 1 } = _ from h] at hexec
  have hcheck : itersCheck k = true := by simpa [itersCheck] using hk
  unfold step
  rw [show execInst c (fetch c { s with tick := k }) _ = _ from hexec]
  exact if_pos hcheck

theorem step_of_turn_stop (h : turn c s = .stop o) : step c { s with tick := k } = .stop o := by
  have hexec := execInst_withTick c (fetch c s) { s with pc := s.pc + 1 } k
  rw [show execInst c (fetch c s) { s with pc := s.pc + 1 } = _ from h] at hexec
  unfold step
  rw [show execInst c (fetch c { s with tick := k }) _ = _ from hexec]

/-- Behind the budget the loop returns whatever the switch does. -/
theorem step_of_turn_budget (h : turn c s = .cont t) (hk : maxIters < k) :
    step c { s with tick := k } = .stop (.returned .budget (c.oneShl32.signExtend 64)) := by
  have hexec := execInst_withTick c (fetch c s) { s with pc := s.pc + 1 } k
  rw [show execInst c (fetch c s) { s with pc := s.pc + 1 } = _ from h] at hexec
  have hcheck : ¬itersCheck k = true := by simpa [itersCheck] using hk
  unfold step
  rw [show execInst c (fetch c { s with tick := k }) _ = _ from hexec]
  exact if_neg hcheck

/-- Within the budget, turns are iterations. -/
theorem run_step_of_turn (h : run (turn c) n s = .cont t) (hk : k + n ≤ maxIters + 1) :
    run (step c) n { s with tick := k } = .cont { t with tick := k + n } := by
  induction n generalizing s k with
  | zero =>
      cases h
      rfl
  | succ n ih =>
      cases hs : turn c s with
      | stop o =>
          rw [run_succ_stop hs] at h
          cases h
      | cont u =>
          rw [run_succ_cont hs] at h
          rw [run_succ_cont (step_of_turn hs (by omega)), ih h (by omega), Nat.add_right_comm]
          rfl

variable {reg : BitVec 4 → BitVec 64} {mem : Mem}

/-- A program that stops within the budget returns its result. -/
theorem ebpfVmExec_of_halts (h : HaltsWithin (turn c) n (initState c reg mem) o)
    (hn : n ≤ maxIters + 1) : ebpfVmExec c reg mem = .stop o := by
  obtain ⟨m, hm, t, ht, ho⟩ := h
  have hrun : run (step c) m (initState c reg mem) = .cont { t with tick := 0 + m } :=
    run_step_of_turn (k := 0) ht (by omega)
  have hstop : run (step c) (m + 1) (initState c reg mem) = .stop o := by
    rw [run_add_of_cont hrun, run_succ_stop (step_of_turn_stop ho)]
  exact run_stop_mono hstop (by omega)

/-- A program that is still running behind the budget returns the budget's
result. -/
theorem ebpfVmExec_of_after {Q : State → Prop} (h : After (turn c) n (initState c reg mem) Q)
    (hn : maxIters + 2 ≤ n) :
    ebpfVmExec c reg mem = .stop (.returned .budget (c.oneShl32.signExtend 64)) := by
  obtain ⟨t, ht⟩ := h.run_cont hn
  obtain ⟨u, hu⟩ := run_cont_of_le ht (Nat.le_succ (maxIters + 1))
  have hrun : run (step c) (maxIters + 1) (initState c reg mem) =
      .cont { u with tick := 0 + (maxIters + 1) } := run_step_of_turn (k := 0) hu (by omega)
  have hnext : turn c u = .cont t := step_of_run_succ hu ht
  rw [ebpfVmExec, show maxIters + 2 = maxIters + 1 + 1 from rfl, run_add_of_cont hrun,
    run_succ_stop (step_of_turn_budget hnext (by omega))]

end Budget

/-! ### Listings -/

def asm (o : Opcode) (dst src : BitVec 4) (offset : BitVec 16) (imm : BitVec 32) : Inst where
  opcode := o.byte
  dst := dst
  src := src
  offset := offset
  imm := imm

@[simp] theorem asm_op (o : Opcode) (dst src : BitVec 4) (offset : BitVec 16)
    (imm : BitVec 32) : (asm o dst src offset imm).op = o := opcodeOf_byte o

/-- `op dst, imm` of the 64-bit class. -/
def aluImm (op : AluOp) (dst : BitVec 4) (imm : BitVec 32) : Inst :=
  asm (.alu64 op .imm) dst 0 0 imm

/-- `op dst, src` of the 64-bit class. -/
def aluReg (op : AluOp) (dst src : BitVec 4) : Inst := asm (.alu64 op .reg) dst src 0 0

/-- `ldx dst, [src + offset]`. -/
def load (size : Size) (dst src : BitVec 4) (offset : BitVec 16) : Inst :=
  asm (.ldx size) dst src offset 0

/-- `stx [dst + offset], src`. -/
def store (size : Size) (dst : BitVec 4) (offset : BitVec 16) (src : BitVec 4) : Inst :=
  asm (.stx size) dst src offset 0

/-- The first slot of `lddw dst, imm`. -/
def loadWide (dst : BitVec 4) (low : BitVec 32) : Inst := asm .lddw dst 0 0 low

/-- The second slot of `lddw`. -/
def wideHigh (high : BitVec 32) : Inst := asm .nop 0 0 0 high

/-- `op dst, imm, +offset`. -/
def branchImm (op : JmpOp) (dst : BitVec 4) (imm : BitVec 32) (offset : BitVec 16) : Inst :=
  asm (.jmp op .imm) dst 0 offset imm

/-- `op dst, src, +offset`. -/
def branchReg (op : JmpOp) (dst src : BitVec 4) (offset : BitVec 16) : Inst :=
  asm (.jmp op .reg) dst src offset 0

/-- `ja +offset`. -/
def jumpAlways (offset : BitVec 16) : Inst := asm .ja 0 0 offset 0

def offsetTo (k l : ℕ) : BitVec 16 := BitVec.ofNat 16 l - BitVec.ofNat 16 (k + 1)

theorem target_offsetTo (k l : ℕ) :
    BitVec.ofNat 16 k + 1 + offsetTo k l = BitVec.ofNat 16 l := by
  rw [offsetTo, BitVec.ofNat_add, BitVec.add_comm]
  exact BitVec.sub_add_cancel _ _

/-- `exit`. -/
def exitInst : Inst := asm .exit 0 0 0 0

def disassemble : List (BitVec 8) → List Inst
  | b₀ :: b₁ :: b₂ :: b₃ :: b₄ :: b₅ :: b₆ :: b₇ :: rest =>
      { opcode := b₀
        dst := b₁.setWidth 4
        src := (b₁ >>> 4).setWidth 4
        offset := b₃ ++ b₂
        imm := b₇ ++ b₆ ++ b₅ ++ b₄ } :: disassemble rest
  | _ => []

theorem length_disassemble_le (code : List (BitVec 8)) :
    (disassemble code).length ≤ instCount code := by
  rw [instCount, Nat.le_div_iff_mul_le (by decide)]
  fun_induction disassemble code with
  | case1 b₀ b₁ b₂ b₃ b₄ b₅ b₆ b₇ rest ih =>
      simp only [List.length_cons]
      omega
  | case2 code hcode => exact Nat.zero_le _

theorem disassemble_getElem {code : List (BitVec 8)} {n : ℕ} (h : n < (disassemble code).length) :
    (disassemble code)[n] = codeInst code n := by
  fun_induction disassemble code generalizing n with
  | case1 b₀ b₁ b₂ b₃ b₄ b₅ b₆ b₇ rest ih =>
      cases n with
      | zero => rfl
      | succ n => exact ih (Nat.lt_of_succ_lt_succ h)
  | case2 code hcode => cases h

/-- The call runs a program that has these instructions from an index on, and
its accesses are not checked. -/
structure Runs (base : ℕ) (prog : List Inst) (c : Call) : Prop where
  insts : ∀ m, HasAt (c.vm.insts m) base prog
  unchecked : c.vm.boundsCheckEnabled = false
  length_lt : base + prog.length < 2 ^ 16

/-- What stands in the memory at the start runs, whatever follows it, on the
instructions that are there then. -/
theorem Stands.runs {code : List (BitVec 8)} {prog : List Inst} {c : Call} {mem : Mem}
    (h : Stands code c.vm mem) (hcheck : c.vm.boundsCheckEnabled = false)
    (hprog : disassemble code = prog) (hlen : prog.length < 2 ^ 16) :
    Runs 0 prog (c.withInsts (c.vm.insts mem)) where
  insts := by
    subst hprog
    intro _ n hn
    have hcount : n < instCount code := hn.trans_le (length_disassemble_le code)
    rw [Nat.zero_add, disassemble_getElem hn]
    exact h n hcount
  unchecked := hcheck
  length_lt := by rwa [Nat.zero_add]

theorem Runs.slice {base : ℕ} {prog is : List Inst} {c : Call} (h : Runs base prog c) (k n : ℕ)
    (hk : decide (k ≤ prog.length) = true) (his : (prog.drop k).take n = is) :
    Runs (base + k) is c where
  insts := by
    subst his
    intro m j hj
    rw [List.length_take, List.length_drop] at hj
    rw [Nat.add_assoc, h.insts m (k + j) (by omega), List.getElem_take, List.getElem_drop]
  unchecked := h.unchecked
  length_lt := by
    subst his
    have hlt := h.length_lt
    have hk := of_decide_eq_true hk
    rw [List.length_take, List.length_drop]
    omega

/-! ### Basic blocks -/

structure Data where
  reg : BitVec 4 → BitVec 64
  mem : Mem

def Data.setReg (d : Data) (r : BitVec 4) (v : BitVec 64) : Data :=
  { d with reg := fun i => if i = r then v else d.reg i }

def State.data (s : State) : Data := ⟨s.reg, s.mem⟩

/-- The call without the checks of `bounds_check`. -/
def Call.withoutChecks (c : Call) : Call :=
  { c with vm := { c.vm with boundsCheckEnabled := false } }

/-- The case neither jumps nor ends the run, and takes one slot. -/
def Opcode.isPlain : Opcode → Bool
  | .ja | .jmp _ _ | .exit | .lddw => false
  | _ => true

/-- What an instruction that takes one slot makes of registers and memory. -/
def effect (c : Call) (i : Inst) (d : Data) : Option Data :=
  match execInst c i ⟨0, d.reg, d.mem, 0⟩ with
  | .cont t => some t.data
  | .stop _ => none

def execBlock (c : Call) : List Inst → Data → Option Data
  | [], d => some d
  | i :: is, d =>
      match i.op with
      | .lddw =>
          match is with
          | [] => none
          | second :: is =>
              if i.regsInFile then
                execBlock c is
                  (d.setReg i.dst (i.imm.setWidth 64 ||| second.imm.setWidth 64 <<< 32))
              else none
      | op => if op.isPlain then (effect c i d).bind fun u => execBlock c is u else none

def blockTurns : List Inst → ℕ
  | [] => 0
  | i :: is =>
      match i.op with
      | .lddw =>
          match is with
          | [] => 0
          | _ :: is => blockTurns is + 1
      | _ => blockTurns is + 1

theorem blockTurns_cons {i : Inst} {is : List Inst} (hop : i.op = .lddw → False) :
    blockTurns (i :: is) = blockTurns is + 1 := by
  rw [blockTurns.eq_def]
  simp only

theorem blockTurns_lddw {i second : Inst} {is : List Inst} (hop : i.op = .lddw) :
    blockTurns (i :: second :: is) = blockTurns is + 1 := by
  simp only [blockTurns, hop]

section Blocks

variable {c : Call} {i : Inst} {s : State} {d e : Data} {prog is : List Inst} {base k n : ℕ}
  {Q : State → Prop}

theorem withoutChecks_of (h : c.vm.boundsCheckEnabled = false) : c.withoutChecks = c := by
  obtain ⟨⟨insts, check, extFuncs⟩, _, _, _, _, _⟩ := c
  cases h
  rfl

/-- Such an instruction does not look at the program counter either. -/
theorem execInst_plain (hop : i.op.isPlain = true) (s : State) :
    execInst c i s =
      match execInst c i ⟨0, s.reg, s.mem, 0⟩ with
      | .cont t => .cont { s with reg := t.reg, mem := t.mem }
      | .stop o => .stop o := by
  unfold execInst
  split
  · rfl
  · cases h : i.op <;> simp only [h] at hop ⊢
    case alu op src => cases alu32 c op src (s.reg i.dst) (s.reg i.src) i.imm <;> rfl
    case alu64 op src => cases alu64 c op src (s.reg i.dst) (s.reg i.src) i.imm <;> rfl
    case ldx size =>
      cases size <;> simp only [execLdx]
      case w => rfl
      all_goals split <;> rfl
    case st =>
      simp only [execStore]
      split <;> rfl
    case stx =>
      simp only [execStore]
      split <;> rfl
    case call =>
      simp only [execCall]
      split <;> rfl
    all_goals first | rfl | cases hop

theorem turn_of_effect (hfetch : fetch c s = i) (hop : i.op.isPlain = true)
    (h : effect c i s.data = some e) :
    turn c s = .cont { s with pc := s.pc + 1, reg := e.reg, mem := e.mem } := by
  rw [turn, hfetch, execInst_plain hop]
  simp only [effect, State.data] at h
  split at h
  · rename_i t ht
    cases h
    rw [ht]
  · cases h

theorem turn_lddw {second : Inst} (hfetch : fetch c s = i) (hop : i.op = .lddw)
    (hregs : i.regsInFile = true) (hsecond : c.vm.insts s.mem (s.pc + 1).toNat = second) :
    turn c s = .cont { s with
      pc := s.pc + 2
      reg := (s.data.setReg i.dst (i.imm.setWidth 64 ||| second.imm.setWidth 64 <<< 32)).reg } := by
  rw [turn, hfetch]
  simp only [execInst, hregs, hop, hsecond, Bool.not_true, Bool.false_eq_true, if_false]
  rw [BitVec.add_assoc]
  rfl

theorem turn_exit (hfetch : fetch c s = i) (hregs : i.regsInFile = true) (hop : i.op = .exit) :
    turn c s = .stop (.returned .exit (s.reg 0)) := by
  rw [turn, hfetch]
  simp only [execInst, hregs, hop, Bool.not_true, Bool.false_eq_true, if_false]

theorem turn_ja (hfetch : fetch c s = i) (hregs : i.regsInFile = true) (hop : i.op = .ja) :
    turn c s = .cont { s with pc := s.pc + 1 + i.offset } := by
  rw [turn, hfetch]
  simp only [execInst, hregs, hop, Bool.not_true, Bool.false_eq_true, if_false]

theorem turn_jmp {op : JmpOp} {src : Src} (hfetch : fetch c s = i) (hregs : i.regsInFile = true)
    (hop : i.op = .jmp op src) :
    turn c s = .cont { s with
      pc := if jmpTaken op src (s.reg i.dst) (s.reg i.src) i.imm then s.pc + 1 + i.offset
        else s.pc + 1 } := by
  rw [turn, hfetch]
  simp only [execInst, hregs, hop, Bool.not_true, Bool.false_eq_true, if_false]
  split <;> rfl

theorem toNat_pc_succ {pc : BitVec 16} {m : ℕ} (h : pc.toNat + (m + 1) < 2 ^ 16) :
    (pc + 1).toNat = pc.toNat + 1 := by
  rw [BitVec.toNat_add]
  exact Nat.mod_eq_of_lt (by show pc.toNat + 1 < _; omega)

theorem pc_add (pc : BitVec 16) (m n : ℕ) :
    pc + BitVec.ofNat 16 m + BitVec.ofNat 16 n = pc + BitVec.ofNat 16 (n + m) := by
  rw [BitVec.add_assoc, ← BitVec.ofNat_add, Nat.add_comm]

theorem run_execBlock (hat : ∀ m, HasAt (c.vm.insts m) s.pc.toNat is)
    (hfit : s.pc.toNat + is.length < 2 ^ 16) (h : execBlock c is s.data = some e) :
    run (turn c) (blockTurns is) s =
      .cont { s with pc := s.pc + BitVec.ofNat 16 is.length, reg := e.reg, mem := e.mem } := by
  generalize hd : s.data = d at h
  fun_induction execBlock c is d generalizing s with
  | case1 d =>
      cases h
      subst hd
      exact congrArg Next.cont (by rw [List.length_nil, BitVec.add_zero]; rfl)
  | case2 => cases h
  | case3 i d hop second is hregs ih =>
      -- the second slot is skipped
      rw [List.length_cons, List.length_cons] at hfit
      have hnext := toNat_pc_succ hfit
      have htwo : (s.pc + 2).toNat = s.pc.toNat + 1 + 1 := by
        rw [BitVec.toNat_add]
        exact Nat.mod_eq_of_lt (by show s.pc.toNat + 2 < _; omega)
      have hsecond : c.vm.insts s.mem (s.pc + 1).toNat = second := by
        rw [hnext]
        exact (hat _).tail.head
      subst hd
      rw [blockTurns_lddw hop, run_succ_cont (turn_lddw (hat _).head hop hregs hsecond),
        ih (fun m => by rw [htwo]; exact (hat m).tail.tail) (by rw [htwo]; omega) rfl h,
        List.length_cons, List.length_cons, ← pc_add s.pc 2]
      rfl
  | case4 => cases h
  | case5 i is d hop hplain ih =>
      rw [List.length_cons] at hfit
      obtain ⟨u, hu, hrest⟩ := Option.bind_eq_some_iff.mp h
      have hnext := toNat_pc_succ hfit
      subst hd
      rw [blockTurns_cons hop, run_succ_cont (turn_of_effect (hat _).head hplain hu),
        ih u (fun m => by rw [hnext]; exact (hat m).tail) (by rw [hnext]; omega) rfl hrest,
        List.length_cons, ← pc_add s.pc 1]
      rfl
  | case6 => cases h

/-! ### Rules -/

theorem Runs.toNat_pc (h : Runs base prog c) (hpc : s.pc = BitVec.ofNat 16 (base + k))
    (hk : k < prog.length) : s.pc.toNat = base + k := by
  have hlt := h.length_lt
  rw [hpc, BitVec.toNat_ofNat]
  exact Nat.mod_eq_of_lt (by omega)

theorem Runs.fetch (h : Runs base prog c) (hpc : s.pc = BitVec.ofNat 16 (base + k))
    (hi : prog[k]? = some i) : Vm.fetch c s = i := by
  obtain ⟨hk, rfl⟩ := List.getElem?_eq_some_iff.mp hi
  rw [Vm.fetch, h.toNat_pc hpc hk, h.insts _ k hk]

/-- The `n` slots from `k` on are a block. -/
theorem Runs.block (h : Runs base prog c) (k n : ℕ) {m : ℕ}
    (hpc : s.pc = BitVec.ofNat 16 (base + k)) (hn : decide (0 < n ∧ k + n ≤ prog.length) = true)
    (hm : blockTurns ((prog.drop k).take n) = m)
    (hexec : execBlock c.withoutChecks ((prog.drop k).take n) s.data = some e)
    (hQ : Q { s with pc := BitVec.ofNat 16 (base + (k + n)), reg := e.reg, mem := e.mem }) :
    After (turn c) m s Q := by
  have hlt := h.length_lt
  have hn := of_decide_eq_true hn
  have hlen : ((prog.drop k).take n).length = n := by
    rw [List.length_take, List.length_drop]
    omega
  have hk := h.toNat_pc hpc (by omega)
  have hat : ∀ m, HasAt (c.vm.insts m) s.pc.toNat ((prog.drop k).take n) := by
    intro m
    rw [hk]
    exact (h.slice k n (decide_eq_true (by omega)) rfl).insts m
  rw [withoutChecks_of h.unchecked] at hexec
  refine ⟨_, ?_, hQ⟩
  rw [← hm, run_execBlock hat (by rw [hk]; omega) hexec, hlen, hpc, ← BitVec.ofNat_add,
    Nat.add_assoc]

theorem asm_regsInFile {o : Opcode} {dst src : BitVec 4} {offset : BitVec 16} {imm : BitVec 32}
    (h : decide (dst.toNat < maxBpfExtReg ∧ src.toNat < maxBpfExtReg) = true) :
    (asm o dst src offset imm).regsInFile = true := by
  obtain ⟨hdst, hsrc⟩ := of_decide_eq_true h
  rw [Inst.regsInFile, Bool.and_eq_true, Bool.or_eq_true, Bool.or_eq_true]
  exact ⟨.inr (decide_eq_true hdst), .inr (decide_eq_true hsrc)⟩

section Jumps

variable {op : JmpOp} {src : Src} {dst r : BitVec 4} {offset : BitVec 16} {imm : BitVec 32}

theorem Runs.turn_jmp (h : Runs base prog c) (hpc : s.pc = BitVec.ofNat 16 (base + k))
    (hi : prog[k]? = some (asm (.jmp op src) dst r offset imm))
    (hregs : decide (dst.toNat < maxBpfExtReg ∧ r.toNat < maxBpfExtReg) = true) :
    turn c s = .cont { s with
      pc := if jmpTaken op src (s.reg dst) (s.reg r) imm then
          BitVec.ofNat 16 (base + k) + 1 + offset
        else BitVec.ofNat 16 (base + k) + 1 } := by
  rw [Vm.turn_jmp (h.fetch hpc hi) (asm_regsInFile hregs) (asm_op _ _ _ _ _), hpc]
  rfl

theorem Runs.taken (h : Runs base prog c) (k l : ℕ) (hpc : s.pc = BitVec.ofNat 16 (base + k))
    (hi : prog[k]? = some (asm (.jmp op src) dst r offset imm))
    (hregs : decide (dst.toNat < maxBpfExtReg ∧ r.toNat < maxBpfExtReg) = true)
    (hl : offset = offsetTo (base + k) l)
    (hcond : jmpTaken op src (s.reg dst) (s.reg r) imm = true) :
    turn c s = .cont { s with pc := BitVec.ofNat 16 l } := by
  rw [h.turn_jmp hpc hi hregs, if_pos hcond, hl, target_offsetTo]

theorem Runs.falls (h : Runs base prog c) (k : ℕ) (hpc : s.pc = BitVec.ofNat 16 (base + k))
    (hi : prog[k]? = some (asm (.jmp op src) dst r offset imm))
    (hregs : decide (dst.toNat < maxBpfExtReg ∧ r.toNat < maxBpfExtReg) = true)
    (hcond : jmpTaken op src (s.reg dst) (s.reg r) imm = false) :
    turn c s = .cont { s with pc := BitVec.ofNat 16 (base + (k + 1)) } := by
  rw [h.turn_jmp hpc hi hregs, if_neg (Bool.not_eq_true _ ▸ hcond), ← Nat.add_assoc,
    BitVec.ofNat_add (base + k)]
  rfl

theorem Runs.jump (h : Runs base prog c) (k l : ℕ) (hpc : s.pc = BitVec.ofNat 16 (base + k))
    (hi : prog[k]? = some (jumpAlways offset)) (hl : offset = offsetTo (base + k) l) :
    turn c s = .cont { s with pc := BitVec.ofNat 16 l } := by
  have hturn := turn_ja (h.fetch hpc hi) (asm_regsInFile rfl) (asm_op _ _ _ _ _)
  rw [hturn, hpc, ← target_offsetTo (base + k) l, hl]
  rfl

/-- An operation whose result depends on what is known of the operands. -/
theorem Runs.alu (h : Runs base prog c) (k : ℕ) {aop : AluOp} {v : BitVec 64}
    (hpc : s.pc = BitVec.ofNat 16 (base + k))
    (hi : prog[k]? = some (asm (.alu64 aop src) dst r offset imm))
    (hregs : decide (dst.toNat < maxBpfExtReg ∧ r.toNat < maxBpfExtReg) = true)
    (hv : alu64 c aop src (s.reg dst) (s.reg r) imm = .value v) :
    turn c s = .cont { s with
      pc := BitVec.ofNat 16 (base + (k + 1))
      reg := (s.data.setReg dst v).reg } := by
  rw [turn, h.fetch hpc hi, execInst, asm_regsInFile hregs, asm_op, hpc, ← Nat.add_assoc,
    BitVec.ofNat_add (base + k)]
  simp only [Bool.not_true, Bool.false_eq_true, if_false]
  show finishAlu _ _ (alu64 c aop src (s.reg dst) (s.reg r) imm) = _
  rw [hv]
  rfl

theorem Runs.exit (h : Runs base prog c) (k : ℕ) (hpc : s.pc = BitVec.ofNat 16 (base + k))
    (hi : prog[k]? = some exitInst) : turn c s = .stop (.returned .exit (s.reg 0)) :=
  turn_exit (h.fetch hpc hi) (asm_regsInFile rfl) (asm_op _ _ _ _ _)

end Jumps

end Blocks

/-! ### What is loaded -/

theorem ofNat_loadLE_byte (m : Mem) (a : BitVec 32) :
    BitVec.ofNat 64 (loadLE m a Size.b.bytes) = (m a).setWidth 64 := by
  apply BitVec.eq_of_toNat_eq
  have hlt := (m a).isLt
  show ((m a).toNat + 256 * 0) % 2 ^ 64 = _
  rw [BitVec.toNat_setWidth, Nat.mul_zero, Nat.add_zero]

theorem ofNat_loadLE_word (m : Mem) (a : BitVec 32) :
    BitVec.ofNat 64 (loadLE m a Size.w.bytes) = (load32 m a).setWidth 64 := by
  apply BitVec.eq_of_toNat_eq
  have hlt := loadLE_lt m a 4
  rw [BitVec.toNat_setWidth, load32, BitVec.toNat_ofNat, BitVec.toNat_ofNat]
  show loadLE m a 4 % 2 ^ 64 = loadLE m a 4 % 2 ^ 32 % 2 ^ 64
  omega

theorem ofNat_loadLE_double (m : Mem) (a : BitVec 32) :
    (BitVec.ofNat 64 (loadLE m a Size.dw.bytes)).setWidth 32 = load32 m a := by
  rw [BitVec.setWidth_ofNat_of_le (by decide), load32]
  show BitVec.ofNat 32 (loadLE m a (4 + 4)) = _
  apply BitVec.eq_of_toNat_eq
  rw [loadLE_add, BitVec.toNat_ofNat, BitVec.toNat_ofNat]
  omega

theorem ofNat_loadLE_at (m : Mem) {x : BitVec 64} {p : ℕ} (hx : x = BitVec.ofNat 64 p) (k : ℕ) :
    BitVec.ofNat 64 (loadLE m ((x + BitVec.ofNat 64 k).setWidth 32) Size.b.bytes) =
      BitVec.ofNat 64 (m (BitVec.ofNat 32 (p + k))).toNat := by
  rw [ofNat_loadLE_byte, hx, ← BitVec.ofNat_add, BitVec.setWidth_ofNat_of_le (by decide),
    BitVec.ofNat_toNat]

/-! ### Conditions on numbers -/

section Conditions

variable {x y : BitVec 64} {m n k : ℕ} {imm : BitVec 32}

theorem signExtend_ofNat (hk : k < 2 ^ 31) :
    (BitVec.ofNat 32 k).signExtend 64 = BitVec.ofNat 64 k := by
  have hmsb : (BitVec.ofNat 32 k).msb = false := by
    rw [BitVec.msb_eq_decide, decide_eq_false_iff_not, BitVec.toNat_ofNat]
    omega
  rw [BitVec.signExtend_eq_setWidth_of_msb_false hmsb, BitVec.setWidth_ofNat_of_le_of_lt]
  · decide
  · omega

theorem ofNat_eq_ofNat (hn : n < 2 ^ 63) (hm : m < 2 ^ 63) :
    BitVec.ofNat 64 n = BitVec.ofNat 64 m ↔ n = m := by
  rw [← BitVec.toNat_inj, BitVec.toNat_ofNat, BitVec.toNat_ofNat]
  omega

theorem jmpTaken_jeq_imm (hx : x = BitVec.ofNat 64 n) (hn : n < 2 ^ 63) (hk : k < 2 ^ 31) :
    jmpTaken .jeq .imm x y (BitVec.ofNat 32 k) = decide (n = k) := by
  rw [Bool.eq_iff_iff, decide_eq_true_iff, ← ofNat_eq_ofNat hn (by omega), ← hx,
    ← signExtend_ofNat hk]
  exact beq_iff_eq

theorem jmpTaken_jne_imm (hx : x = BitVec.ofNat 64 n) (hn : n < 2 ^ 63) (hk : k < 2 ^ 31) :
    jmpTaken .jne .imm x y (BitVec.ofNat 32 k) = decide (n ≠ k) := by
  rw [Bool.eq_iff_iff, decide_eq_true_iff, ne_eq, ← ofNat_eq_ofNat hn (by omega), ← hx,
    ← signExtend_ofNat hk]
  exact bne_iff_ne

theorem jmpTaken_jsgt_imm (hx : x = BitVec.ofNat 64 n) (hn : n < 2 ^ 63) (hk : k < 2 ^ 31) :
    jmpTaken .jsgt .imm x y (BitVec.ofNat 32 k) = decide (k < n) := by
  show ((BitVec.ofNat 32 k).signExtend 64).slt x = _
  rw [signExtend_ofNat hk, hx, BitVec.slt, decide_eq_decide, BitVec.toInt_ofNat',
    BitVec.toInt_ofNat', Int.bmod_eq_of_le (by omega) (by omega),
    Int.bmod_eq_of_le (by omega) (by omega)]
  exact Int.ofNat_lt

theorem jmpTaken_jgt_reg (hx : x = BitVec.ofNat 64 n) (hy : y = BitVec.ofNat 64 m)
    (hn : n < 2 ^ 63) (hm : m < 2 ^ 63) : jmpTaken .jgt .reg x y imm = decide (m < n) := by
  show y.ult x = _
  rw [hx, hy, BitVec.ult, decide_eq_decide, BitVec.toNat_ofNat, BitVec.toNat_ofNat]
  omega

end Conditions

end RapidPatch.Vm
