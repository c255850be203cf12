import RapidPatch.Support.Spans
import RapidPatch.Thumb.Block

/-!
Stack frames and calls.

A second fragment of the instruction set, for code that sets up a frame and
calls functions: pushes, moves and sums on the stack pointer, a call through
a register, and a pop that returns. `stackStep` runs both fragments; what it
does on the first one is `step` (`stackStep_of_step`), so that runs of
straight-line code are runs of it too.

`StackRuns` is `Runs` with pushes and the arithmetic of the stack pointer.
A pop restores what a push saved if the words are still there
(`popRegs_of_wordsAt`).

The stack pointer is a multiple of four; an instruction that would make it
anything else is unpredictable and faults. A return from an exception is in
neither fragment.
-/

namespace RapidPatch.Thumb

open RapidPatch.Support

/-- The instructions that leave the program counter to `stackStep`. -/
inductive StackData
  /-- A push of the registers of a mask. -/
  | push (regs : BitVec 16)
  /-- A move from or to the stack pointer. -/
  | movSp (rd rm : Reg)
  /-- The stack pointer plus or minus an immediate. -/
  | addSp (rd : Reg) (imm : Word)
  | subSp (rd : Reg) (imm : Word)
  deriving DecidableEq, Repr

inductive StackInstr
  | data (d : StackData)
  /-- A pop of the registers of a mask, and behind them of the program
  counter. -/
  | popPc (regs : BitVec 16)
  /-- A call of the function whose address is in a register. -/
  | blx (rm : Reg)
  deriving DecidableEq, Repr

/-! ### Decoding -/

/-- The registers of a mask below the program counter, in order. -/
def regsOf (regs : BitVec 16) : List Reg :=
  ((List.range 15).filter fun i => regs.getLsbD i).map fun i => BitVec.ofNat 4 i

def imm12 (x : BitVec 32) : Word :=
  (bits x 26 1 ++ (bits x 12 3 ++ bits x 0 8) : BitVec 12).setWidth 32

def decodeStack32 (x : BitVec 32) : Option StackInstr :=
  let regs : BitVec 16 := bits x 0 16
  let d := bits x 8 4
  let m := bits x 0 4
  if bits x 16 16 = 0xe92d then
    if bits x 15 1 = 1 || bits x 13 1 = 1 || (regsOf regs).length < 2 then none
    else some (.data (.push regs))
  else if bits x 16 16 = 0xe8bd then
    -- the forms without the program counter are not in the fragment
    if bits x 15 1 = 0 || bits x 14 1 = 1 || bits x 13 1 = 1 || regsOf regs = [] then none
    else some (.popPc regs)
  else if bits x 16 16 = 0xea4f && bits x 12 4 = 0 && bits x 4 4 = 0 then
    if d = 15 || m = 15 || (d == 13) == (m == 13) then none else some (.data (.movSp d m))
  else if bits x 27 5 = 0b11110 && bits x 15 1 = 0 && bits x 16 4 = 13 && d ≠ 15 then
    if bits x 20 6 = 0b100000 then some (.data (.addSp d (imm12 x)))
    else if bits x 20 6 = 0b101010 then some (.data (.subSp d (imm12 x)))
    else none
  else none

def decodeStack16 (hw : BitVec 16) : Option StackInstr :=
  if bits hw 7 9 = 0b010001111 && bits hw 0 3 = 0 && bits hw 3 4 ≠ 15 then
    some (.blx (bits hw 3 4))
  else none

/-! ### Execution -/

/-- A register is set; the stack pointer to a multiple of four only. -/
def Core.setAligned (s : Core) (rd : Reg) (x : Word) : Option Core :=
  if rd = 13 && !aligned x then none else some (s.set rd x)

/-- The registers saved by a push, lowest address first. -/
def Core.push (s : Core) (rs : List Reg) : Core :=
  let a := s.r 13 - BitVec.ofNat 32 (4 * rs.length)
  { s.set 13 a with mem := storeWords s.mem a (rs.map s.r) }

/-- Registers loaded from the words from `a` on. -/
def popRegs (s : Core) (a : Word) : List Reg → Core
  | [] => s
  | r :: rs => popRegs (s.set r (load32 s.mem a)) (a + 4) rs

def execStackData (s : Core) : StackData → Option Core
  | .push regs => if aligned (s.r 13) then some (s.push (regsOf regs)) else none
  | .movSp rd rm => s.setAligned rd (s.r rm)
  | .addSp rd imm => s.setAligned rd (s.r 13 + imm)
  | .subSp rd imm => s.setAligned rd (s.r 13 - imm)

/-- `BLXWritePC`: the lowest bit of the address selects the state, and there is
only one. -/
def blxWritePC (pc : Word) (target : Word) (s : Core) : Next Cpu Fault :=
  if target &&& 1 = 1 then .cont ⟨target &&& ~~~1#32, s⟩ else .stop ⟨pc⟩

/-- `BXWritePC`: an address at the top would be a return from an exception. -/
def bxWritePC (pc : Word) (target : Word) (s : Core) : Next Cpu Fault :=
  if bits target 28 4 = 0xf then .stop ⟨pc⟩ else blxWritePC pc target s

/-- The core after a pop, and the word for the program counter. -/
def Core.popPc (s : Core) (rs : List Reg) : Core × Word :=
  let a := s.r 13
  ((popRegs s a rs).set 13 (a + BitVec.ofNat 32 (4 * (rs.length + 1))),
    load32 s.mem (a + BitVec.ofNat 32 (4 * rs.length)))

def fetchStack (code : Word → BitVec 16) (a : Word) : Option StackInstr × Word :=
  if isWide (code a) then (decodeStack32 (code a ++ code (a + 2)), 4)
  else (decodeStack16 (code a), 2)

def stackStep (code : Word → BitVec 16) (s : Cpu) : Next Cpu Fault :=
  match (fetch code s.pc).1 with
  | some _ => step code s
  | none =>
      match fetchStack code s.pc with
      | (some (.data d), size) =>
          match execStackData s.core d with
          | some core => .cont ⟨s.pc + size, core⟩
          | none => .stop ⟨s.pc⟩
      | (some (.popPc regs), _) =>
          if aligned (s.core.r 13) then
            let (core, target) := s.core.popPc (regsOf regs)
            bxWritePC s.pc target core
          else .stop ⟨s.pc⟩
      | (some (.blx rm), size) =>
          blxWritePC s.pc (s.core.r rm) (s.core.set 14 ((s.pc + size) ||| 1))
      | (none, _) => .stop ⟨s.pc⟩

/-! ### Runs -/

variable {code : Word → BitVec 16}

theorem stackStep_of_step {s t : Cpu} (h : step code s = .cont t) : stackStep code s = .cont t := by
  cases hfetch : fetch code s.pc with
  | mk i size =>
      cases i with
      | none => simp [step, hfetch] at h
      | some i => simp only [stackStep, hfetch, h]

/-- A run of the first fragment. -/
theorem reaches_stackStep {s t : Cpu} (h : Reaches (step code) s t) :
    Reaches (stackStep code) s t := by
  refine h.invariant (fun u v hu hv => ?_) (.refl s)
  exact hu.trans (.single (stackStep_of_step hv))

/-- The halfwords take the core from one state to another. -/
inductive StackRuns : List (BitVec 16) → Core → Core → Prop
  | nil (s : Core) : StackRuns [] s s
  | block {hws hws' : List (BitVec 16)} {s t u : Core} (h : Runs hws s t)
      (h' : StackRuns hws' t u) : StackRuns (hws ++ hws') s u
  | stack {hw hw' : BitVec 16} {hws : List (BitVec 16)} {d : StackData} {s t u : Core}
      (hsize : isWide hw = true) (hnot : decode32 (hw ++ hw') = none)
      (hd : decodeStack32 (hw ++ hw') = some (.data d)) (he : execStackData s d = some t)
      (h' : StackRuns hws t u) : StackRuns (hw :: hw' :: hws) s u

namespace StackRuns

variable {hws hws' : List (BitVec 16)} {s t u : Core}

theorem append (h : StackRuns hws s t) (h' : StackRuns hws' t u) :
    StackRuns (hws ++ hws') s u := by
  induction h with
  | nil _ => exact h'
  | block hrun _ ih =>
      rw [List.append_assoc]
      exact .block hrun (ih h')
  | stack hsize hnot hd he _ ih => exact .stack hsize hnot hd he (ih h')

theorem of_runs (h : Runs hws s t) : StackRuns hws s t := by
  have hrun := StackRuns.block h (.nil t)
  rwa [List.append_nil] at hrun

theorem step_stack {a : Word} {hw hw' : BitVec 16} {d : StackData} (hm : code a = hw)
    (hm' : code (a + 2) = hw') (hsize : isWide hw = true) (hnot : decode32 (hw ++ hw') = none)
    (hd : decodeStack32 (hw ++ hw') = some (.data d)) (he : execStackData s d = some t) :
    stackStep code ⟨a, s⟩ = .cont ⟨a + 4, t⟩ := by
  have hm'' : code (a + 2#32) = hw' := hm'
  simp [stackStep, fetch, fetchStack, hm, hm'', isIt_of_isWide hsize, hsize, hnot, hd, he]

/-- The code at an address takes the processor to the byte behind it. -/
theorem reaches {a : Word} (h : StackRuns hws s t) (hcode : CodeAt code a hws) :
    Reaches (stackStep code) ⟨a, s⟩ ⟨after a hws.length, t⟩ := by
  induction h generalizing a with
  | nil s =>
      rw [List.length_nil, after_zero]
      exact .refl _
  | @block hws hws' s t u hrun _ ih =>
      obtain ⟨hfirst, hrest⟩ := codeAt_append.mp hcode
      rw [List.length_append, after_add]
      exact (reaches_stackStep (hrun.reaches hfirst)).trans (ih hrest)
  | @stack hw hw' hws d s t u hsize hnot hd he _ ih =>
      obtain ⟨hm, hm', hrest⟩ := hcode
      have haddr : a + 2 + 2 = a + 4 := by
        rw [BitVec.add_assoc]
        rfl
      have hnext : after a (hws.length + 1 + 1) = after (a + 4) hws.length := by
        rw [Nat.add_assoc, Nat.add_comm, after_add]
        rfl
      rw [haddr] at hrest
      rw [List.length_cons, List.length_cons, hnext]
      exact .head (step_stack hm hm' hsize hnot hd he) (ih hrest)

end StackRuns

/-- The code at an address returns to `target` with the core `w`. -/
def ReturnsTo (code : Word → BitVec 16) (a : Word) (s : Core) (target : Word) (w : Core) : Prop :=
  ∃ pc t, Reaches (stackStep code) ⟨a, s⟩ ⟨pc, t⟩ ∧
    stackStep code ⟨pc, t⟩ = bxWritePC pc target w

/-- A return to an address as a call leaves it. -/
theorem ReturnsTo.reaches {a target : Word} {s w : Core} (h : ReturnsTo code a s target w)
    (hthumb : target &&& 1 = 1) (htop : bits target 28 4 ≠ 0xf) :
    Reaches (stackStep code) ⟨a, s⟩ ⟨target &&& ~~~1#32, w⟩ := by
  obtain ⟨pc, t, hreach, hstep⟩ := h
  rw [bxWritePC, if_neg htop, blxWritePC, if_pos hthumb] at hstep
  exact hreach.trans (.single hstep)

/-! ### Saved registers -/

@[simp] theorem push_r (s : Core) (rs : List Reg) (i : Reg) :
    (s.push rs).r i = if i = 13 then s.r 13 - BitVec.ofNat 32 (4 * rs.length) else s.r i := rfl

@[simp] theorem push_mem (s : Core) (rs : List Reg) :
    (s.push rs).mem = storeWords s.mem (s.r 13 - BitVec.ofNat 32 (4 * rs.length)) (rs.map s.r) :=
  rfl

theorem popRegs_mem (s : Core) (a : Word) (rs : List Reg) : (popRegs s a rs).mem = s.mem := by
  induction rs generalizing s a with
  | nil => rfl
  | cons r rs ih => rw [popRegs, ih, Core.set]

/-- Registers whose contents are in memory get them from there. -/
theorem popRegs_of_wordsAt {s : Core} {a : Word} {rs : List Reg} {f : Reg → Word}
    (h : WordsAt s.mem a (rs.map f)) (i : Reg) :
    (popRegs s a rs).r i = if i ∈ rs then f i else s.r i := by
  induction rs generalizing s a with
  | nil => rfl
  | cons r rs ih =>
      have hrest : WordsAt (s.set r (load32 s.mem a)).mem (a + 4) (rs.map f) := h.2
      have hload : load32 s.mem a = f r := h.1
      rw [popRegs, ih hrest]
      by_cases hi : i ∈ rs
      · rw [if_pos hi, if_pos (List.mem_cons_of_mem r hi)]
      · rw [if_neg hi]
        by_cases hir : i = r
        · rw [if_pos (List.mem_cons.mpr (.inl hir)), hir]
          exact (if_pos rfl).trans hload
        · rw [if_neg fun hmem => (List.mem_cons.mp hmem).elim hir hi]
          exact if_neg hir

/-! ### Calls and returns -/

section

variable {a : Word} {hw hw' : BitVec 16} {s : Core}

/-- A call leaves the address behind it in the link register. -/
theorem step_blx {rm : Reg} (hm : code a = hw) (hsize : isWide hw = false) (hit : isIt hw = false)
    (hnot : decode16 hw = none) (hd : decodeStack16 hw = some (.blx rm)) :
    stackStep code ⟨a, s⟩ = blxWritePC a (s.r rm) (s.set 14 ((a + 2) ||| 1)) := by
  simp [stackStep, fetch, fetchStack, hm, hsize, hit, hnot, hd]

theorem step_popPc {regs : BitVec 16} {f : Reg → Word} {target : Word} (hm : code a = hw)
    (hm' : code (a + 2) = hw') (hsize : isWide hw = true) (hnot : decode32 (hw ++ hw') = none)
    (hd : decodeStack32 (hw ++ hw') = some (.popPc regs)) (hal : aligned (s.r 13) = true)
    (hwords : WordsAt s.mem (s.r 13) ((regsOf regs).map f ++ [target])) :
    ∃ w, stackStep code ⟨a, s⟩ = bxWritePC a target w ∧
      (∀ i, w.r i = if i = 13 then s.r 13 + BitVec.ofNat 32 (4 * ((regsOf regs).length + 1))
        else if i ∈ regsOf regs then f i else s.r i) ∧ w.mem = s.mem := by
  obtain ⟨hkept, htarget, -⟩ := wordsAt_append.mp hwords
  rw [List.length_map] at htarget
  refine ⟨(s.popPc (regsOf regs)).1, ?_, fun i => ?_, popRegs_mem _ _ _⟩
  · have hm'' : code (a + 2#32) = hw' := hm'
    have hpc : (s.popPc (regsOf regs)).2 = target := htarget
    have hal' : aligned (s.r 13#4) = true := hal
    simp [stackStep, fetch, fetchStack, hm, hm'', isIt_of_isWide hsize, hsize, hnot, hd, hal', hpc]
  · by_cases hi : i = 13
    · rw [if_pos hi]
      exact if_pos hi
    · rw [if_neg hi, ← popRegs_of_wordsAt hkept]
      exact if_neg hi

end

end RapidPatch.Thumb
