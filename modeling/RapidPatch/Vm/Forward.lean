import RapidPatch.Support.Truncation
import RapidPatch.Vm.Checker
import RapidPatch.Vm.Transparency

/-!
Programs that only jump forward.

`evalForward` goes once through a listing. Behind a jump that is taken it
passes over as many slots as the offset says, so it is defined by recursion on
the listing, and a listing is evaluated by `simp`, with a case for each jump.
Such a program needs no more iterations than it has slots
(`within_of_evalForward`), and the interpreter ends with the registers and the
memory that `evalForward` says (`Runs.ends_of_evalForward`), also where the
program is loaded into the memory that it stores to
(`KeepsCode.ends_of_evalForward`).
-/

namespace RapidPatch.Vm

open RapidPatch.Support

/-- What `f` is of the registers and the memory at the end, from the slot behind
the next `skip` ones on. A jump back passes over all that is left. -/
def evalForward {α : Type} (c : Call) (f : Data → α) : List Inst → ℕ → Data → Option α
  | [], _, _ => none
  | _ :: is, skip + 1, d => evalForward c f is skip d
  | i :: is, 0, d =>
      if i.regsInFile then
        match i.op with
        | .exit => some (f d)
        | .ja => evalForward c f is i.offset.toNat d
        | .jmp op src =>
            if jmpTaken op src (d.reg i.dst) (d.reg i.src) i.imm then
              evalForward c f is i.offset.toNat d
            else evalForward c f is 0 d
        | .lddw =>
            match is.head? with
            | none => none
            | some second =>
                evalForward c f is 1
                  (d.setReg i.dst (i.imm.setWidth 64 ||| second.imm.setWidth 64 <<< 32))
        | _ => (effect c i d).bind fun e => evalForward c f is 0 e
      else none

section

variable {α : Type} {c : Call} {f : Data → α} {i : Inst} {is prog : List Inst} {s : State}
  {d : Data} {v : α} {k skip n : ℕ}

theorem isPlain_of_ne {o : Opcode} (hexit : o = .exit → False) (hja : o = .ja → False)
    (hjmp : ∀ op src, o = .jmp op src → False) (hlddw : o = .lddw → False) :
    o.isPlain = true := by
  cases o with
  | exit => exact absurd rfl hexit
  | ja => exact absurd rfl hja
  | jmp op src => exact absurd rfl (hjmp op src)
  | lddw => exact absurd rfl hlddw
  | _ => rfl

theorem target_forward (k : ℕ) (offset : BitVec 16) :
    BitVec.ofNat 16 k + 1 + offset = BitVec.ofNat 16 (k + 1 + offset.toNat) := by
  rw [BitVec.ofNat_add, BitVec.ofNat_toNat, BitVec.setWidth_eq, BitVec.ofNat_add]
  rfl

theorem toNat_pc (hfit : k < 2 ^ 16) (hpc : s.pc = BitVec.ofNat 16 k) : s.pc.toNat = k := by
  rw [hpc, BitVec.toNat_ofNat]
  exact Nat.mod_eq_of_lt hfit

theorem fetch_head (hat : ∀ m, HasAt (c.vm.insts m) k (i :: is))
    (hfit : k + (is.length + 1) < 2 ^ 16) (hpc : s.pc = BitVec.ofNat 16 k) : fetch c s = i := by
  rw [fetch, toNat_pc (by omega) hpc]
  exact (hat _).head

theorem second_head {second : Inst} (hat : ∀ m, HasAt (c.vm.insts m) k (i :: second :: is))
    (hfit : k + (is.length + 1 + 1) < 2 ^ 16) (hpc : s.pc = BitVec.ofNat 16 k) :
    c.vm.insts s.mem (s.pc + 1).toNat = second := by
  have hk := toNat_pc (by omega) hpc
  rw [toNat_pc_succ (m := 0) (by omega), hk]
  exact (hat _).tail.head

theorem within_of_evalForward (hat : ∀ m, HasAt (c.vm.insts m) k is) (hfit : k + is.length < 2 ^ 16)
    (hpc : s.pc = BitVec.ofNat 16 (k + skip)) (h : evalForward c f is skip s.data = some v) :
    Within (turn c) is.length s fun t =>
      turn c t = .stop (.returned .exit (t.reg 0)) ∧ f t.data = v := by
  generalize hd : s.data = d at h
  fun_induction evalForward c f is skip d generalizing k s with
  | case1 => cases h
  | case2 i is skip d ih =>
      -- the slot is passed over
      rw [List.length_cons] at hfit ⊢
      have hk : k + (skip + 1) = k + 1 + skip := by omega
      rw [hk] at hpc
      exact (ih (fun m => (hat m).tail) (by omega) hpc hd h).le (Nat.le_succ _)
  | case3 i is d hregs hop =>
      cases h
      subst hd
      exact .refl ⟨turn_exit (fetch_head hat hfit hpc) hregs hop, rfl⟩
  | case4 i is d hregs hop ih =>
      subst hd
      rw [List.length_cons] at hfit
      refine .head (turn_ja (fetch_head hat hfit hpc) hregs hop)
        (ih (fun m => (hat m).tail) (by omega) ?_ rfl h)
      rw [hpc]
      exact target_forward k i.offset
  | case5 i is d hregs op src hop htaken ih =>
      subst hd
      rw [List.length_cons] at hfit
      refine .head (turn_jmp (fetch_head hat hfit hpc) hregs hop)
        (ih (fun m => (hat m).tail) (by omega) ?_ rfl h)
      refine (if_pos htaken).trans ?_
      rw [hpc]
      exact target_forward k i.offset
  | case6 i is d hregs op src hop hfalls ih =>
      subst hd
      rw [List.length_cons] at hfit
      refine .head (turn_jmp (fetch_head hat hfit hpc) hregs hop)
        (ih (fun m => (hat m).tail) (by omega) ?_ rfl h)
      refine (if_neg hfalls).trans ?_
      rw [hpc]
      exact (BitVec.ofNat_add k 1).symm
  | case7 => cases h
  | case8 i is d hregs hop second hhead ih =>
      subst hd
      rw [List.length_cons] at hfit
      obtain ⟨is, rfl⟩ : ∃ rest, is = second :: rest := List.head?_eq_some_iff.mp hhead
      have hsecond := second_head hat hfit hpc
      refine .head (turn_lddw (fetch_head hat hfit hpc) hop hregs hsecond)
        (ih (fun m => (hat m).tail) (by omega) ?_ rfl h)
      rw [hpc]
      exact (BitVec.ofNat_add k 2).symm
  | case9 i is d hregs hexit hja hjmp hlddw ih =>
      subst hd
      rw [List.length_cons] at hfit
      obtain ⟨e, heffect, hrest⟩ := Option.bind_eq_some_iff.mp h
      have hplain := isPlain_of_ne hexit hja hjmp hlddw
      refine .head (turn_of_effect (fetch_head hat hfit hpc) hplain heffect)
        (ih e (fun m => (hat m).tail) (by omega) ?_ rfl hrest)
      rw [hpc]
      exact (BitVec.ofNat_add k 1).symm
  | case10 => cases h

/-- The interpreter ends as the listing says. -/
theorem Runs.ends_of_evalForward {reg : BitVec 4 → BitVec 64} {mem : Mem} (h : Runs 0 prog c)
    (hlen : prog.length ≤ maxIters)
    (hv : evalForward c.withoutChecks f prog 0 (initState c reg mem).data = some v) :
    ∃ t, Reaches (step c) (initState c reg mem) t ∧
      step c t = .stop (.returned .exit (t.reg 0)) ∧
      ebpfVmExec c reg mem = .stop (.returned .exit (t.reg 0)) ∧ f t.data = v := by
  rw [withoutChecks_of h.unchecked] at hv
  obtain ⟨m, hm, t, ht, hstop, hres⟩ := within_of_evalForward h.insts h.length_lt rfl hv
  have hrun : run (step c) m (initState c reg mem) = .cont { t with tick := 0 + m } :=
    run_step_of_turn (k := 0) ht (by omega)
  have hhalts : HaltsWithin (turn c) m (initState c reg mem) (.returned .exit (t.reg 0)) :=
    ⟨m, Nat.le_refl m, t, ht, hstop⟩
  exact ⟨_, reaches_of_run hrun, step_of_turn_stop hstop,
    ebpfVmExec_of_halts hhalts (by omega), hres⟩

section

variable {calls : List ℕ} {A : BitVec 32 → Prop} {regs : List (BitVec 4)} {base : BitVec 32}
  {code rest : List (BitVec 8)} {reg : BitVec 4 → BitVec 64} {mem : Mem}
  (h : KeepsCode calls prog A regs base code c reg) (hload : Loaded (code ++ rest) base c.vm mem)
  (hcheck : c.vm.boundsCheckEnabled = false) (hlen : prog.length ≤ maxIters)

include h hload hcheck hlen

/-- A loaded program ends as its listing says. -/
theorem KeepsCode.ends_of_evalForward
    (hv : evalForward (c.withInsts (codeInst code)).withoutChecks f prog 0
      (initState c reg mem).data = some v) :
    ∃ t, Reaches (step c) (initState c reg mem) t ∧
      step c t = .stop (.returned .exit (t.reg 0)) ∧
      ebpfVmExec c reg mem = .stop (.returned .exit (t.reg 0)) ∧ f t.data = v := by
  obtain ⟨hruns, hsame, hexecs⟩ := h.runs hload hcheck
  obtain ⟨t, hreach, hstop, hexec, hres⟩ := hruns.ends_of_evalForward hlen hv
  have hthere := (hsame t).mp hreach
  have hfetches := (h.reaches hload hthere).2.fetches (h.confinedRun hload t hthere)
  exact ⟨t, hthere, hfetches.step_eq.symm.trans hstop, hexecs.symm.trans hexec, hres⟩

/-- It returns what the listing says. -/
theorem KeepsCode.exec_of_evalForward {ret : BitVec 64}
    (hv : evalForward (c.withInsts (codeInst code)).withoutChecks (fun d => d.reg 0) prog 0
      (initState c reg mem).data = some ret) :
    ebpfVmExec c reg mem = .stop (.returned .exit ret) := by
  obtain ⟨t, -, -, hexec, hret⟩ := h.ends_of_evalForward hload hcheck hlen hv
  rw [hexec, show t.reg 0 = ret from hret]

/-- The same with the memory behind it. -/
theorem KeepsCode.execMem_of_evalForward {mem' : Mem} {ret : BitVec 64}
    (hv : evalForward (c.withInsts (codeInst code)).withoutChecks (fun d => (d.reg 0, d.mem)) prog 0
      (initState c reg mem).data = some (ret, mem')) :
    ebpfVmExecMem c reg mem = .stop (.returned .exit ret, mem') := by
  obtain ⟨t, hreach, hstop, -, hres⟩ := h.ends_of_evalForward hload hcheck hlen hv
  obtain ⟨hret, hmem⟩ := Prod.mk.inj hres
  rw [ebpfVmExecMem_of_reaches hreach hstop, show t.reg 0 = ret from hret,
    show t.mem = mem' from hmem]

end

end

/-! ### One instruction of a listing -/

/-- `call n`. -/
def callInst (n : BitVec 32) : Inst := asm .call 0 0 0 n

@[simp] theorem Data.setReg_reg (d : Data) (r i : BitVec 4) (v : BitVec 64) :
    (d.setReg r v).reg i = if i = r then v else d.reg i := rfl

@[simp] theorem Data.setReg_mem (d : Data) (r : BitVec 4) (v : BitVec 64) :
    (d.setReg r v).mem = d.mem := rfl

section Rules

variable {α : Type} {c : Call} {f : Data → α} {i : Inst} {is : List Inst} {d : Data}
  {dst src : BitVec 4} {offset : BitVec 16} {imm low high : BitVec 32} {n : ℕ}

theorem inFile {o : Opcode} (h : dst.toNat < 12) (h' : src.toNat < 12) :
    (asm o dst src offset imm).regsInFile = true :=
  asm_regsInFile (decide_eq_true ⟨h, h'⟩)

@[simp] theorem evalForward_skip :
    evalForward c f (i :: is) (n + 1) d = evalForward c f is n d := by
  rw [evalForward]

@[simp] theorem evalForward_exit : evalForward c f (exitInst :: is) 0 d = some (f d) := by
  rw [evalForward, exitInst, asm_regsInFile rfl, asm_op]
  rfl

theorem evalForward_jmp {op : JmpOp} {s : Src} (h : dst.toNat < 12) (h' : src.toNat < 12) :
    evalForward c f (asm (.jmp op s) dst src offset imm :: is) 0 d =
      if jmpTaken op s (d.reg dst) (d.reg src) imm then evalForward c f is offset.toNat d
      else evalForward c f is 0 d := by
  rw [evalForward, inFile h h', asm_op]
  rfl

@[simp] theorem evalForward_branchImm {op : JmpOp} (h : dst.toNat < 12) :
    evalForward c f (branchImm op dst imm offset :: is) 0 d =
      if jmpTaken op .imm (d.reg dst) (d.reg 0) imm then evalForward c f is offset.toNat d
      else evalForward c f is 0 d :=
  evalForward_jmp h (by decide)

@[simp] theorem evalForward_branchReg {op : JmpOp} (h : dst.toNat < 12) (h' : src.toNat < 12) :
    evalForward c f (branchReg op dst src offset :: is) 0 d =
      if jmpTaken op .reg (d.reg dst) (d.reg src) 0 then evalForward c f is offset.toNat d
      else evalForward c f is 0 d :=
  evalForward_jmp h h'

/-- Behind an arithmetic instruction. -/
def evalValue {α : Type} (c : Call) (f : Data → α) (is : List Inst) (d : Data)
    (dst : BitVec 4) : AluResult → Option α
  | .value v => evalForward c f is 0 (d.setReg dst v)
  | .divByZero | .undefined => none

@[simp] theorem evalValue_value (v : BitVec 64) :
    evalValue c f is d dst (.value v) = evalForward c f is 0 (d.setReg dst v) := rfl

theorem evalForward_alu {op : AluOp} {s : Src} (h : dst.toNat < 12) (h' : src.toNat < 12) :
    evalForward c f (asm (.alu64 op s) dst src offset imm :: is) 0 d =
      evalValue c f is d dst (alu64 c op s (d.reg dst) (d.reg src) imm) := by
  have hexec : execInst c (asm (.alu64 op s) dst src offset imm) ⟨0, d.reg, d.mem, 0⟩ =
      finishAlu ⟨0, d.reg, d.mem, 0⟩ (asm (.alu64 op s) dst src offset imm)
        (alu64 c op s (d.reg dst) (d.reg src) imm) := by
    simp only [execInst, inFile h h', asm_op, Bool.not_true, Bool.false_eq_true, if_false]
    rfl
  rw [evalForward, inFile h h', if_pos rfl, asm_op]
  simp only [effect, hexec]
  cases alu64 c op s (d.reg dst) (d.reg src) imm <;> rfl

@[simp] theorem evalForward_aluImm {op : AluOp} (h : dst.toNat < 12) :
    evalForward c f (aluImm op dst imm :: is) 0 d =
      evalValue c f is d dst (alu64 c op .imm (d.reg dst) (d.reg 0) imm) :=
  evalForward_alu h (by decide)

@[simp] theorem evalForward_aluReg {op : AluOp} (h : dst.toNat < 12) (h' : src.toNat < 12) :
    evalForward c f (aluReg op dst src :: is) 0 d =
      evalValue c f is d dst (alu64 c op .reg (d.reg dst) (d.reg src) 0) :=
  evalForward_alu h h'

@[simp] theorem evalForward_load {size : Size} (h : dst.toNat < 12) (h' : src.toNat < 12) :
    evalForward c.withoutChecks f (load size dst src offset :: is) 0 d =
      evalForward c.withoutChecks f is 0 (d.setReg dst (BitVec.ofNat 64
        (loadLE d.mem ((d.reg src + offset.signExtend 64).setWidth 32) size.bytes))) := by
  rw [evalForward, load, inFile h h', if_pos rfl, asm_op]
  simp only [effect, execInst, inFile h h', asm_op, Bool.not_true, Bool.false_eq_true, if_false]
  cases size <;> rfl

@[simp] theorem evalForward_store {size : Size} (h : dst.toNat < 12) (h' : src.toNat < 12) :
    evalForward c.withoutChecks f (store size dst offset src :: is) 0 d =
      evalForward c.withoutChecks f is 0 { d with
        mem := storeLE d.mem ((d.reg dst + offset.signExtend 64).setWidth 32) size.bytes
          (d.reg src).toNat } := by
  rw [evalForward, store, inFile h h', if_pos rfl, asm_op]
  simp only [effect, execInst, inFile h h', asm_op, Bool.not_true, Bool.false_eq_true, if_false]
  rfl

@[simp] theorem evalForward_loadWide (h : dst.toNat < 12) :
    evalForward c f (loadWide dst low :: wideHigh high :: is) 0 d =
      evalForward c f is 0 (d.setReg dst (low.setWidth 64 ||| high.setWidth 64 <<< 32)) := by
  rw [evalForward, loadWide, inFile h (by decide), asm_op]
  show evalForward c f (wideHigh high :: is) 1 _ = _
  rw [evalForward_skip]
  rfl

theorem evalForward_call {g : ExtFunc} (hn : low.toNat < maxExtFuncs)
    (hg : c.vm.extFuncs low.toNat = some g) :
    evalForward c f (callInst low :: is) 0 d =
      evalForward c f is 0
        (({ d with mem := (g (d.reg 1) (d.reg 2) (d.reg 3) (d.reg 4) (d.reg 5) d.mem).2 } :
          Data).setReg 0 (g (d.reg 1) (d.reg 2) (d.reg 3) (d.reg 4) (d.reg 5) d.mem).1) := by
  have hregs : (asm .call 0 0 0 low).regsInFile = true := inFile (by decide) (by decide)
  have himm : (asm .call 0 0 0 low).imm = low := rfl
  rw [callInst, evalForward, hregs, if_pos rfl, asm_op]
  simp only [effect, execInst, execCall, hregs, himm, hn, hg, asm_op, Bool.not_true,
    Bool.false_eq_true, if_false, if_true]
  rfl

@[simp high] theorem evalForward_zeroExtend (h : dst.toNat < 12) :
    evalForward c f (aluImm .lsh dst 32#32 :: aluImm .rsh dst 32#32 :: is) 0 d =
      evalForward c f is 0 ((d.setReg dst (d.reg dst <<< 32)).setReg dst
        (((d.reg dst).setWidth 32).setWidth 64)) := by
  rw [evalForward_aluImm h, ← ushiftRight_shiftLeft _ (by decide)]
  show evalForward c f (aluImm .rsh dst 32#32 :: is) 0 _ = _
  rw [evalForward_aluImm h, Data.setReg_reg, if_pos rfl]
  rfl

@[simp high] theorem evalForward_signExtend (h : dst.toNat < 12) :
    evalForward c f (aluImm .lsh dst 32#32 :: aluImm .arsh dst 32#32 :: is) 0 d =
      evalForward c f is 0 ((d.setReg dst (d.reg dst <<< 32)).setReg dst
        (((d.reg dst).setWidth 32).signExtend 64)) := by
  rw [evalForward_aluImm h, ← sshiftRight_shiftLeft _ (by decide) (by decide)]
  show evalForward c f (aluImm .arsh dst 32#32 :: is) 0 _ = _
  rw [evalForward_aluImm h, Data.setReg_reg, if_pos rfl]
  rfl

end Rules

end RapidPatch.Vm
