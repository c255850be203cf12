import RapidPatch.Jit.Words

/-!
The operations of `emit_alu32_reg` on two core registers.

Most of them have a 16-bit and a 32-bit encoding and mean the same in both.
Two do not. The 16-bit `ORR` puts its registers into the wrong fields: it
changes the source register, by an `or` or by a product with a third register
(`sets_orr16`). The 32-bit `EOR` asks for a rotation by zero, which is the
encoding of a rotation by one through the carry (`sets_eor`).
-/

namespace RapidPatch.Jit

open RapidPatch.Vm RapidPatch.Thumb RapidPatch.Support

/-! ### Shifts by any amount -/

@[simp] theorem shiftC_lsl (x : Word) (n : ℕ) (c : Bool) : (shiftC .lsl x n c).1 = x <<< n := by
  cases n with
  | zero => simp [shiftC]
  | succ n => rfl

@[simp] theorem shiftC_lsr (x : Word) (n : ℕ) (c : Bool) : (shiftC .lsr x n c).1 = x >>> n := by
  cases n with
  | zero => simp [shiftC]
  | succ n => rfl

@[simp] theorem shiftC_asr (x : Word) (n : ℕ) (c : Bool) :
    (shiftC .asr x n c).1 = x.sshiftRight n := by
  cases n with
  | zero => simp [shiftC]
  | succ n => rfl

theorem exec_shiftReg (f : Bool) (t : SRType) (rd rn rm : Reg) (s : Core) :
    ∃ u, execData s (.shiftReg f t rd rn rm) = some u ∧ u.mem = s.mem ∧
      u.r = (s.set rd (shiftC t (s.r rn) ((s.r rm).toNat % 256) s.c).1).r := by
  cases f <;> exact ⟨_, rfl, rfl, rfl⟩

theorem exec_dp (op : DpOp) (f : Bool) (rd rn rm : Reg) (t : SRType) (k : ℕ) (s : Core) :
    ∃ u, execData s (.dp op f rd rn rm t k) = some u ∧ u.mem = s.mem ∧
      u.r = (s.set rd (dpResult op s (s.r rn) (shiftC t (s.r rm) k s.c).1
        (shiftC t (s.r rm) k s.c).2).1).r := by
  cases f <;> exact ⟨_, rfl, rfl, rfl⟩

section Sets

variable {f : Bool} {op : DpOp} {rd rn rm : Reg} {t : SRType} {k : ℕ}

theorem sets_dp {x : BitVec 32} (hd : decode32 x = some (.data (.dp op f rd rn rm t k))) :
    Sets (emit4 x) rd fun s =>
      (dpResult op s (s.r rn) (shiftC t (s.r rm) k s.c).1 (shiftC t (s.r rm) k s.c).2).1 :=
  sets_emit4 hd (exec_dp op f rd rn rm t k)

theorem sets_dpImm {x : BitVec 32} {imm : Word}
    (hd : decode32 x = some (.data (.dpImm op f rd rn imm))) :
    Sets (emit4 x) rd fun s => (dpResult op s (s.r rn) imm s.c).1 :=
  sets_emit4 hd fun _ => by cases f <;> exact ⟨_, rfl, rfl, rfl⟩

theorem sets_shiftReg {x : BitVec 32} (hd : decode32 x = some (.data (.shiftReg f t rd rn rm))) :
    Sets (emit4 x) rd fun s => (shiftC t (s.r rn) ((s.r rm).toNat % 256) s.c).1 :=
  sets_emit4 hd (exec_shiftReg f t rd rn rm)

theorem sets_movShift {x : BitVec 32} (hd : decode32 x = some (.data (.movShift f t rd rm k))) :
    Sets (emit4 x) rd fun s => (shiftC t (s.r rm) k s.c).1 :=
  sets_emit4 hd fun _ => by cases f <;> exact ⟨_, rfl, rfl, rfl⟩

theorem sets_movShift16 {x : BitVec 16} (hd : decode16 x = some (.data (.movShift f t rd rm k))) :
    Sets (emit2 x) rd fun s => (shiftC t (s.r rm) k s.c).1 :=
  sets_emit2 hd fun _ => by cases f <;> exact ⟨_, rfl, rfl, rfl⟩

end Sets

/-! ### Operations that have one meaning -/

/-- What an operation leaves in the destination's word, if it is not one of
the two that depend on the encoding. -/
def wordValue (op : AluOp) (x y : Word) : Word :=
  match op with
  | .add => x + y
  | .sub => x - y
  | .mul => x * y
  | .and => x &&& y
  | .lsh => x <<< (y.toNat % 256)
  | .rsh => x >>> (y.toNat % 256)
  | .arsh => x.sshiftRight (y.toNat % 256)
  | _ => x

/-- The operations `wordValue` is about. -/
def isPlain : AluOp → Bool
  | .add | .sub | .mul | .and | .lsh | .rsh | .arsh => true
  | _ => false

theorem decode_lowOr : ∀ p q : Fin 5, p < 4 → q < 4 →
    decode16 (twoLow 0x4340 (lo p) (lo q)) = some (.data (.muls (loReg p) (loReg q))) ∧
      decode16 (twoLow 0x4080 (lo p) (lo q)) =
        some (.data (.shiftReg true .lsl (loReg p) (loReg p) (loReg q))) ∧
      decode16 (twoLow 0x40c0 (lo p) (lo q)) =
        some (.data (.shiftReg true .lsr (loReg p) (loReg p) (loReg q))) ∧
      decode16 (twoLow 0x4100 (lo p) (lo q)) =
        some (.data (.shiftReg true .asr (loReg p) (loReg p) (loReg q))) := by
  decide

theorem decode_wideOp : ∀ p q : Fin 5,
    decode32 (thumb32MulT2 (lo p) (lo q) (lo p)) =
        some (.data (.mul (loReg p) (loReg q) (loReg p))) ∧
      decode32 (thumb32LslwRegT2 (lo p) (lo p) (lo q) flagNos) =
        some (.data (.shiftReg false .lsl (loReg p) (loReg p) (loReg q))) ∧
      decode32 (thumb32LsrwRegT2 (lo p) (lo p) (lo q) flagNos) =
        some (.data (.shiftReg false .lsr (loReg p) (loReg p) (loReg q))) ∧
      decode32 (thumb32AsrwRegT2 (lo p) (lo p) (lo q) flagNos) =
        some (.data (.shiftReg false .asr (loReg p) (loReg p) (loReg q))) := by
  decide

theorem lt_four_of_lo {p : Fin 5} (h : lo p < 8) : p < 4 := by
  revert p
  decide

theorem sets_lowOr {base : BitVec 32} {wide : BitVec 32} {p q : Fin 5} {rd : Reg}
    {f : Core → Word} (h16 : p < 4 → q < 4 → Sets (emit2 (twoLow base (lo p) (lo q))) rd f)
    (h32 : Sets (emit4 wide) rd f) : Sets (emitLowOr base wide (lo p) (lo q)) rd f := by
  unfold emitLowOr
  split
  · rename_i h
    exact h16 (lt_four_of_lo h.2.2.2) (lt_four_of_lo h.2.1)
  · exact h32

theorem sets_plain {op : AluOp} (hop : isPlain op = true) (p q : Fin 5) :
    Sets (emitAluOp (lo p) (lo q) true false op) (loReg p)
      (fun s => wordValue op (s.r (loReg p)) (s.r (loReg q))) := by
  obtain ⟨hmul, hlsl, hlsr, hasr⟩ := decode_wideOp p q
  cases op with
  | add =>
      refine sets_emit4 (decode_add p q).1 fun s => ⟨_, rfl, rfl, ?_⟩
      show (s.set (loReg p) _).r = (s.set (loReg p) _).r
      simp only [dpResult, shiftC_lsl, BitVec.shiftLeft_zero, wordValue]
      rw [addWithCarry_sum, BitVec.add_comm]
  | sub =>
      refine sets_emit4 (decode_sub p q).1 fun s => ⟨_, rfl, rfl, ?_⟩
      show (s.set (loReg p) _).r = (s.set (loReg p) _).r
      simp only [dpResult, shiftC_lsl, BitVec.shiftLeft_zero, wordValue]
      rw [addWithCarry_diff]
  | and =>
      intro s
      obtain ⟨t, ht, hm, hval, hk⟩ := runs_emitAndReg false p q s
      exact ⟨t, ht, hm, hval, hk⟩
  | mul =>
      refine sets_lowOr (fun hp hq => ?_) ?_
      · refine sets_emit2 (decode_lowOr p q hp hq).1 fun s => ⟨_, rfl, rfl, ?_⟩
        show (s.set (loReg p) _).r = (s.set (loReg p) _).r
        rw [BitVec.mul_comm]
        rfl
      · refine sets_emit4 hmul fun s => ⟨_, rfl, rfl, ?_⟩
        show (s.set (loReg p) _).r = (s.set (loReg p) _).r
        rw [BitVec.mul_comm]
        rfl
  | lsh =>
      refine sets_lowOr (fun hp hq => ?_) ?_
      · exact sets_emit2 (decode_lowOr p q hp hq).2.1 fun s => by
          simpa [wordValue] using exec_shiftReg true .lsl (loReg p) (loReg p) (loReg q) s
      · exact sets_emit4 hlsl fun s => by
          simpa [wordValue] using exec_shiftReg false .lsl (loReg p) (loReg p) (loReg q) s
  | rsh =>
      refine sets_lowOr (fun hp hq => ?_) ?_
      · exact sets_emit2 (decode_lowOr p q hp hq).2.2.1 fun s => by
          simpa [wordValue] using exec_shiftReg true .lsr (loReg p) (loReg p) (loReg q) s
      · exact sets_emit4 hlsr fun s => by
          simpa [wordValue] using exec_shiftReg false .lsr (loReg p) (loReg p) (loReg q) s
  | arsh =>
      refine sets_lowOr (fun hp hq => ?_) ?_
      · exact sets_emit2 (decode_lowOr p q hp hq).2.2.2 fun s => by
          simpa [wordValue] using exec_shiftReg true .asr (loReg p) (loReg p) (loReg q) s
      · exact sets_emit4 hasr fun s => by
          simpa [wordValue] using exec_shiftReg false .asr (loReg p) (loReg p) (loReg q) s
  | _ => cases hop

/-! ### `or` -/

/-- The register that the 16-bit `ORR` combines the source register with. -/
def orrOther (h : Bool) (p : Fin 5) : Reg := BitVec.ofNat 4 (2 * ((halfReg h p).toNat % 4))

/-- What the 16-bit `ORR` makes of the source register. -/
def orrMixed (p : Fin 5) (x y : Word) : Word := if p < 2 then x ||| y else x * y

theorem decode_orr16 : ∀ (h : Bool) (p q : Fin 5), p < 4 → q < 4 →
    decode16 (thumb16OrrRegT1 (half h p) (half h q)) = some (.data (if p < 2 then
      .dp .orr true (halfReg h q) (halfReg h q) (orrOther h p) .lsl 0
    else .muls (halfReg h q) (orrOther h p))) := by
  decide

theorem decode_orr32 : ∀ (h : Bool) (p : Fin 5),
    decode32 (thumb32OrrwRegT2 (half h p) (half h p) (half h 4) 0 srtypeAsl flagNos) =
      some (.data (.dp .orr false (halfReg h p) (halfReg h p) (halfReg h 4) .lsl 0)) := by
  decide

theorem isLow_half : ∀ (h : Bool) (p : Fin 5), isLow (half h p) = decide (p < 4) := by
  decide

/-- Two low registers: the source register is changed. -/
theorem sets_orr16 (h : Bool) {p q : Fin 5} (hp : p < 4) (hq : q < 4) :
    Sets (emitOrrReg (half h p) (half h q)) (halfReg h q)
      (fun s => orrMixed p (s.r (halfReg h q)) (s.r (orrOther h p))) := by
  have hdec := decode_orr16 h p q hp hq
  simp only [emitOrrReg, isLow_half, hp, hq, decide_true, Bool.and_self, if_true]
  by_cases h2 : p < 2
  · rw [if_pos h2] at hdec
    exact sets_emit2 hdec fun s => by
      simpa [orrMixed, h2, dpResult] using
        exec_dp .orr true (halfReg h q) (halfReg h q) (orrOther h p) .lsl 0 s
  · rw [if_neg h2] at hdec
    refine sets_emit2 hdec fun s => ⟨_, rfl, rfl, ?_⟩
    show (s.set (halfReg h q) _).r = (s.set (halfReg h q) _).r
    rw [BitVec.mul_comm, orrMixed, if_neg h2]

/-- A source in `TMP_REG_2`: the destination gets the `or`. -/
theorem sets_orr32 (h : Bool) (p : Fin 5) :
    Sets (emitOrrReg (half h p) (half h 4)) (halfReg h p)
      (fun s => s.r (halfReg h p) ||| s.r (halfReg h 4)) := by
  have hlow : isLow (half h 4) = false := by
    revert h
    decide
  simp only [emitOrrReg, hlow, Bool.and_false, Bool.false_eq_true, if_false]
  exact sets_emit4 (decode_orr32 h p) fun s => by
    simpa [dpResult] using exec_dp .orr false (halfReg h p) (halfReg h p) (halfReg h 4) .lsl 0 s

/-! ### `xor` -/

/-- The 16-bit encoding of `emit_alu32_reg` is used. -/
def usesLow (h : Bool) (p q : Fin 5) : Bool :=
  0 < half h q && half h q < 8 && 0 < half h p && half h p < 8

theorem decode_eor : ∀ (h : Bool) (p q : Fin 5),
    (usesLow h p q = true → decode16 (twoLow 0x4040 (half h p) (half h q)) =
        some (.data (.dp .eor true (halfReg h p) (halfReg h p) (halfReg h q) .lsl 0))) ∧
      decode32 (thumb32EorRegT2 (half h p) (half h q) (half h p) 0 srtypeRor flagNos) =
        some (.data (.dp .eor false (halfReg h p) (halfReg h q) (halfReg h p) .rrx 1)) := by
  decide

/-- The 32-bit encoding combines the source with the destination rotated
through the carry. -/
theorem sets_eor (h : Bool) (p q : Fin 5) :
    Sets (emitLowOr 0x4040 (thumb32EorRegT2 (half h p) (half h q) (half h p) 0 srtypeRor flagNos)
        (half h p) (half h q)) (halfReg h p)
      (fun s => if usesLow h p q then s.r (halfReg h p) ^^^ s.r (halfReg h q)
        else s.r (halfReg h q) ^^^ rotateIn (s.r (halfReg h p)) s.c) := by
  obtain ⟨h16, h32⟩ := decode_eor h p q
  have hcond : (half h q > 0 ∧ half h q < 8 ∧ half h p > 0 ∧ half h p < 8) ↔
      usesLow h p q = true := by
    simp only [usesLow, Bool.and_eq_true, decide_eq_true_eq, and_assoc, gt_iff_lt]
  unfold emitLowOr
  by_cases hlow : usesLow h p q = true
  · rw [if_pos (hcond.mpr hlow)]
    exact sets_emit2 (h16 hlow) fun s => by
      simpa [hlow, dpResult] using
        exec_dp .eor true (halfReg h p) (halfReg h p) (halfReg h q) .lsl 0 s
  · rw [if_neg (hcond.not.mpr hlow)]
    exact sets_emit4 h32 fun s => by
      simpa [hlow, dpResult, shiftC] using
        exec_dp .eor false (halfReg h p) (halfReg h q) (halfReg h p) .rrx 1 s

end RapidPatch.Jit
