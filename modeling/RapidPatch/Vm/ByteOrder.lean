import Mathlib.Tactic.IntervalCases
import RapidPatch.Support.Bytes
import RapidPatch.Vm.Exec

/-!
The byte-order instructions on a little-endian host.

The swaps of `ebpf_types.h` move byte lanes by masks and shifts;
`getLsbD_swap16` and its siblings say which bit comes from where, and that
makes them `reverseBytes`. A parameter of 16 or 32 bits cuts what is above
it off. The macros for the other direction have no parameter type, so that
they leave what is above the low `n` bits in place
(`byteOrderRight_iff`).
-/

namespace RapidPatch.Vm

open RapidPatch.Support

/-- `LE` with a width. -/
def leInst (r : BitVec 4) (n : ℕ) : Inst :=
  { opcode := Opcode.le.byte, dst := r, src := 0, offset := 0, imm := BitVec.ofNat 32 n }

/-- `BE` with a width. -/
def beInst (r : BitVec 4) (n : ℕ) : Inst :=
  { opcode := Opcode.be.byte, dst := r, src := 0, offset := 0, imm := BitVec.ofNat 32 n }

/-- The widths the two instructions have. -/
def IsSwapWidth (n : ℕ) : Prop := n = 16 ∨ n = 32 ∨ n = 64

/-- The two instructions as the instruction set has them: `LE` keeps the low
`n` bits, `BE` the reversal of their bytes, and `BE` twice is `LE`. -/
structure ByteOrderRight (c : Call) (r : BitVec 4) (n : ℕ) (s : State) : Prop where
  le : execInst c (leInst r n) s =
    .cont (s.setReg r (BitVec.ofNat 64 ((s.reg r).toNat % 2 ^ n)))
  be : execInst c (beInst r n) s =
    .cont (s.setReg r (BitVec.ofNat 64 (reverseBytes (n / 8) ((s.reg r).toNat % 2 ^ n))))
  twice : ∀ t, execInst c (beInst r n) s = .cont t →
    execInst c (beInst r n) t = execInst c (leInst r n) s

/-! ### The swaps -/

theorem getLsbD_swap16 (x : BitVec 16) {i : ℕ} (hi : i < 16) :
    (swap16 x).getLsbD i = x.getLsbD (8 * (1 - i / 8) + i % 8) := by
  unfold swap16
  interval_cases i <;> simp

theorem getLsbD_swap32 (x : BitVec 32) {i : ℕ} (hi : i < 32) :
    (swap32 x).getLsbD i = x.getLsbD (8 * (3 - i / 8) + i % 8) := by
  unfold swap32
  interval_cases i <;> simp

theorem getLsbD_swap64 (x : BitVec 64) {i : ℕ} (hi : i < 64) :
    (swap64 x).getLsbD i = x.getLsbD (8 * (7 - i / 8) + i % 8) := by
  unfold swap64
  interval_cases i <;> simp

theorem toNat_eq_reverseBytes {n w : ℕ} (hw : w = 8 * n) {x y : BitVec w}
    (h : ∀ i < w, y.getLsbD i = x.getLsbD (8 * (n - 1 - i / 8) + i % 8)) :
    y.toNat = reverseBytes n x.toNat := by
  subst hw
  apply Nat.eq_of_testBit_eq
  intro i
  rw [testBit_reverseBytes, BitVec.testBit_toNat, BitVec.testBit_toNat]
  by_cases hi : i < 8 * n
  · rw [h i hi, decide_eq_true hi, Bool.true_and]
  · rw [decide_eq_false hi, Bool.false_and, BitVec.getLsbD_of_ge y i (Nat.not_lt.mp hi)]

theorem toNat_swap16 (x : BitVec 16) : (swap16 x).toNat = reverseBytes 2 x.toNat :=
  toNat_eq_reverseBytes rfl fun _ hi => getLsbD_swap16 x hi

theorem toNat_swap32 (x : BitVec 32) : (swap32 x).toNat = reverseBytes 4 x.toNat :=
  toNat_eq_reverseBytes rfl fun _ hi => getLsbD_swap32 x hi

theorem toNat_swap64 (x : BitVec 64) : (swap64 x).toNat = reverseBytes 8 x.toNat :=
  toNat_eq_reverseBytes rfl fun _ hi => getLsbD_swap64 x hi

/-! ### The instructions -/

variable {n : ℕ}

theorem eight_mul_div (hn : IsSwapWidth n) : 8 * (n / 8) = n := by
  rcases hn with rfl | rfl | rfl <;> rfl

theorem htole_eq (x : BitVec 64) (imm : BitVec 32) : htole x imm = x := by
  unfold htole
  split <;> rfl

/-- `BE` reverses the low bytes, whatever is above them. -/
theorem toNat_htobe (hn : IsSwapWidth n) (x : BitVec 64) :
    (htobe x (BitVec.ofNat 32 n)).toNat = reverseBytes (n / 8) (x.toNat % 2 ^ n) := by
  rcases hn with rfl | rfl | rfl
  · have hlt := (swap16 (x.setWidth 16)).isLt
    show ((swap16 (x.setWidth 16)).setWidth 64).toNat = _
    rw [BitVec.toNat_setWidth, Nat.mod_eq_of_lt (by omega), toNat_swap16, BitVec.toNat_setWidth]
  · have hlt := (swap32 (x.setWidth 32)).isLt
    show ((swap32 (x.setWidth 32)).setWidth 64).toNat = _
    rw [BitVec.toNat_setWidth, Nat.mod_eq_of_lt (by omega), toNat_swap32, BitVec.toNat_setWidth]
  · show (swap64 x).toNat = _
    rw [toNat_swap64, Nat.mod_eq_of_lt x.isLt]

theorem htobe_eq (hn : IsSwapWidth n) (x : BitVec 64) :
    htobe x (BitVec.ofNat 32 n) = BitVec.ofNat 64 (reverseBytes (n / 8) (x.toNat % 2 ^ n)) := by
  rw [← toNat_htobe hn, BitVec.ofNat_toNat, BitVec.setWidth_eq]

theorem toNat_htobe_htobe (hn : IsSwapWidth n) (x : BitVec 64) :
    (htobe (htobe x (BitVec.ofNat 32 n)) (BitVec.ofNat 32 n)).toNat = x.toNat % 2 ^ n := by
  have hwidth := eight_mul_div hn
  have hlt := reverseBytes_lt (n / 8) (x.toNat % 2 ^ n)
  rw [hwidth] at hlt
  rw [toNat_htobe hn, toNat_htobe hn, Nat.mod_eq_of_lt hlt, reverseBytes_reverseBytes, hwidth,
    Nat.mod_mod]

variable {c : Call} {r : BitVec 4} {s : State}

theorem regsInFile_of_swap {i : Inst} (hop : i.op = .le ∨ i.op = .be) :
    i.regsInFile = decide (i.dst.toNat < maxBpfExtReg) := by
  rcases hop with hop | hop <;> simp [Inst.regsInFile, hop, Opcode.usesDst, Opcode.usesSrc]

theorem execInst_leInst (h : r.toNat < maxBpfExtReg) :
    execInst c (leInst r n) s = .cont (s.setReg r (s.reg r)) := by
  have hop : (leInst r n).op = .le := opcodeOf_byte .le
  have hregs : (leInst r n).regsInFile = true :=
    (regsInFile_of_swap (Or.inl hop)).trans (decide_eq_true h)
  simp only [execInst, hregs, hop, htole_eq]
  rfl

theorem execInst_leInst_undefined (h : ¬r.toNat < maxBpfExtReg) :
    execInst c (leInst r n) s = .stop .undefined := by
  have hop : (leInst r n).op = .le := opcodeOf_byte .le
  have hregs : (leInst r n).regsInFile = false :=
    (regsInFile_of_swap (Or.inl hop)).trans (decide_eq_false h)
  simp [execInst, hregs]

theorem execInst_beInst (h : r.toNat < maxBpfExtReg) :
    execInst c (beInst r n) s = .cont (s.setReg r (htobe (s.reg r) (BitVec.ofNat 32 n))) := by
  have hop : (beInst r n).op = .be := opcodeOf_byte .be
  have hregs : (beInst r n).regsInFile = true :=
    (regsInFile_of_swap (Or.inr hop)).trans (decide_eq_true h)
  simp only [execInst, hregs, hop]
  rfl

theorem setReg_inj {v w : BitVec 64} : s.setReg r v = s.setReg r w ↔ v = w := by
  constructor
  · intro h
    have hreg := congrArg (fun t : State => t.reg r) h
    simpa using hreg
  · rintro rfl
    rfl

/-- The byte-order instructions are right exactly on the registers of the
file whose contents fit the width: `LE` does not cut off what is above. -/
theorem byteOrderRight_iff (c : Call) (r : BitVec 4) (s : State) (hn : IsSwapWidth n) :
    ByteOrderRight c r n s ↔ r.toNat < maxBpfExtReg ∧ (s.reg r).toNat < 2 ^ n := by
  have hbig : (s.reg r).toNat % 2 ^ n < 2 ^ 64 := (Nat.mod_le _ _).trans_lt (s.reg r).isLt
  have hle : s.reg r = BitVec.ofNat 64 ((s.reg r).toNat % 2 ^ n) ↔ (s.reg r).toNat < 2 ^ n := by
    rw [← BitVec.toNat_inj, BitVec.toNat_ofNat, Nat.mod_eq_of_lt hbig]
    constructor
    · intro h
      rw [h]
      exact Nat.mod_lt _ (Nat.two_pow_pos n)
    · intro h
      rw [Nat.mod_eq_of_lt h]
  constructor
  · rintro ⟨hr, -, -⟩
    by_cases h : r.toNat < maxBpfExtReg
    · rw [execInst_leInst h, Next.cont.injEq, setReg_inj] at hr
      exact ⟨h, hle.mp hr⟩
    · rw [execInst_leInst_undefined h] at hr
      cases hr
  · rintro ⟨h, hfits⟩
    have hkeep := hle.mpr hfits
    refine ⟨?_, ?_, ?_⟩
    · rw [execInst_leInst h, ← hkeep]
    · rw [execInst_beInst h, htobe_eq hn]
    · intro t ht
      rw [execInst_beInst h] at ht
      cases ht
      have htwice : htobe (htobe (s.reg r) (BitVec.ofNat 32 n)) (BitVec.ofNat 32 n) = s.reg r := by
        rw [← BitVec.toNat_inj, toNat_htobe_htobe hn, Nat.mod_eq_of_lt hfits]
      rw [execInst_beInst h, execInst_leInst h, setReg_reg, if_pos rfl, htwice]
      simp only [State.setReg]
      congr 2
      funext i
      split <;> rfl

/-- Nothing but a register matters to a byte-order instruction. -/
def swapCall : Call where
  vm := { insts := fun _ _ => leInst 0 16, boundsCheckEnabled := true, extFuncs := fun _ => none }
  mem := 0
  memLen := 0
  stack := 0x20000000
  overshift := fun _ _ => 0
  oneShl32 := 0

def swapState (x : BitVec 64) : State where
  pc := 0
  reg := fun _ => x
  mem := fun _ => 0
  tick := 0

theorem byteOrderRight_low : ByteOrderRight swapCall 0 16 (swapState 0x1122) :=
  (byteOrderRight_iff swapCall 0 (swapState 0x1122) (Or.inl rfl)).mpr ⟨by decide, by decide⟩

theorem le16_keeps_high_bytes :
    ¬ByteOrderRight swapCall 0 16 (swapState 0x8877665544332211) := by
  rintro ⟨hle, -, -⟩
  have hexec : execInst swapCall (leInst 0 16) (swapState 0x8877665544332211) =
      .cont ((swapState 0x8877665544332211).setReg 0 0x8877665544332211) := rfl
  rw [hexec, Next.cont.injEq, setReg_inj] at hle
  revert hle
  decide

end RapidPatch.Vm
