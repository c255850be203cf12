import RapidPatch.Jit.Regs

/-!
The blocks of code the arithmetic instructions are made of.

Each block is specified by what it leaves in its pair, as one 64-bit number,
and by the registers it does not touch. Immediates are followed through
`movw` and `movt`; the other encodings have few operands and are evaluated
at all of them.
-/

namespace RapidPatch.Jit

open RapidPatch.Vm RapidPatch.Thumb RapidPatch.Support

/-! ### Immediates -/

theorem regField_toNat (r : Reg) (k : ℕ) : regField (r.toNat : ℤ) k = r.setWidth 32 <<< k := by
  rw [regField, BitVec.ofInt_natCast]
  congr 1
  apply BitVec.eq_of_toNat_eq
  simp

theorem decode_movs (c : BitVec 3) (b : BitVec 8) :
    decode16 ((0x2000 ||| c.setWidth 32 <<< 8 ||| b.setWidth 32).setWidth 16) =
      some (.data (.movImm true (lowReg c) (b.setWidth 32))) := by
  set x : BitVec 16 := (0x2000 ||| c.setWidth 32 <<< 8 ||| b.setWidth 32).setWidth 16 with hx
  have htop : bits x 11 5 = 0b00100 := by
    apply BitVec.eq_of_getLsbD_eq
    intro i hi
    simp only [hx, bits]
    interval_cases i <;> simp
  have hrd : bits x 8 3 = c := by
    apply BitVec.eq_of_getLsbD_eq
    intro i hi
    simp only [hx, bits]
    interval_cases i <;> simp
  have himm : bits x 0 8 = b := by
    apply BitVec.eq_of_getLsbD_eq
    intro i hi
    simp only [hx, bits]
    interval_cases i <;> simp
  simp only [decode16, htop, hrd, himm]
  rfl

theorem movImm16_fields {base : BitVec 32} (hbase : base = 0xf2400000 ∨ base = 0xf2c00000)
    (r : Reg) (v : BitVec 32) :
    let x := movImm16 base r.toNat v
    bits x 27 5 = 0b11110 ∧ bits x 15 1 = 0 ∧ bits x 8 4 = r ∧ bits x 20 6 = bits base 20 6 ∧
      bits x 16 4 ++ (bits x 26 1 ++ (bits x 12 3 ++ bits x 0 8)) = v.setWidth 16 := by
  refine ⟨?_, ?_, ?_, ?_, ?_⟩
  · apply BitVec.eq_of_getLsbD_eq
    intro i hi
    simp only [bits, movImm16, regField_toNat]
    rcases hbase with rfl | rfl <;> interval_cases i <;> simp
  · apply BitVec.eq_of_getLsbD_eq
    intro i hi
    simp only [bits, movImm16, regField_toNat]
    rcases hbase with rfl | rfl <;> interval_cases i <;> simp
  · apply BitVec.eq_of_getLsbD_eq
    intro i hi
    simp only [bits, movImm16, regField_toNat]
    rcases hbase with rfl | rfl <;> interval_cases i <;> simp
  · apply BitVec.eq_of_getLsbD_eq
    intro i hi
    simp only [bits, movImm16, regField_toNat]
    rcases hbase with rfl | rfl <;> interval_cases i <;> simp
  · apply BitVec.eq_of_getLsbD_eq
    intro i hi
    simp only [bits, movImm16, regField_toNat, BitVec.getLsbD_append]
    rcases hbase with rfl | rfl <;> interval_cases i <;> simp

theorem decode_movw {r : Reg} (hr : badReg r = false) (v : BitVec 32) :
    decode32 (movImm16 0xf2400000 r.toNat v) =
      some (.data (.movImm false r ((v.setWidth 16).setWidth 32))) := by
  obtain ⟨htop, h15, hrd, hop, himm⟩ := movImm16_fields (Or.inl rfl) r v
  have h25 := congrArg (bits · 5 1) hop
  simp only [bits_bits _ (show 5 + 1 ≤ 6 by decide)] at h25
  simp only [decode32, htop, h15, h25, decodeMovImm16, hrd, hop, himm, hr]
  rfl

theorem decode_movt {r : Reg} (hr : badReg r = false) (v : BitVec 32) :
    decode32 (movImm16 0xf2c00000 r.toNat v) = some (.data (.movt r (v.setWidth 16))) := by
  obtain ⟨htop, h15, hrd, hop, himm⟩ := movImm16_fields (Or.inr rfl) r v
  have h25 := congrArg (bits · 5 1) hop
  simp only [bits_bits _ (show 5 + 1 ≤ 6 by decide)] at h25
  simp only [decode32, htop, h15, h25, decodeMovImm16, hrd, hop, himm, hr]
  rfl

theorem runs_emitMovImm {r : Reg} (hr : r < 10) (v : BitVec 32) (s : Core) :
    ∃ t, Runs (emitMovImm r.toNat v) s t ∧ t.r r = v ∧ t.mem = s.mem ∧ t.c = s.c ∧
      ∀ i ≠ r, t.r i = s.r i := by
  have hrn : r.toNat < 10 := hr
  have hbad : badReg r = false := by
    revert r
    decide
  have hmod : (r.toNat : ℤ) % 256 = r.toNat := by omega
  have hkeep : ∀ (x : Word) (i : Reg), i ≠ r → (s.set r x).r i = s.r i := by
    intro x i hi
    simp [hi]
  simp only [emitMovImm, hmod]
  by_cases hsmall : v ≤ 0xff ∧ (r.toNat : ℤ) < 8
  · -- `MOVS`, which has three bits for its register
    have hv : v = (v.setWidth 8).setWidth 32 := by
      have : v.toNat ≤ 255 := hsmall.1
      apply BitVec.eq_of_toNat_eq
      simp only [BitVec.toNat_setWidth]
      omega
    have hreg : r = lowReg (r.setWidth 3) := by
      apply BitVec.eq_of_toNat_eq
      simp only [lowReg, BitVec.toNat_setWidth]
      omega
    have hfield : regField (r.toNat : ℤ) 8 = (r.setWidth 3).setWidth 32 <<< 8 := by
      rw [regField_toNat]
      nth_rewrite 1 [hreg]
      congr 1
    have hdec := decode_movs (r.setWidth 3) (v.setWidth 8)
    rw [← hreg, ← hv, ← hfield] at hdec
    rw [if_pos hsmall]
    exact ⟨(s.set r v).setNZ v, runs_emit2 hdec rfl, by simp, rfl, rfl, hkeep v⟩
  · -- `MOVW`, and `MOVT` if there is an upper half
    rw [if_neg hsmall]
    let u := s.set r (((v &&& 0xffff).setWidth 16).setWidth 32)
    have h1 : Runs (emit4 (movImm16 0xf2400000 r.toNat (v &&& 0xffff))) s u :=
      runs_emit4 (decode_movw hbad _) rfl
    by_cases hbig : v > 0xffff
    · let w := u.set r ((v >>> 16).setWidth 16 ++ (u.r r).setWidth 16)
      have h2 : Runs (emit4 (movImm16 0xf2c00000 r.toNat (v >>> 16))) u w :=
        runs_emit4 (decode_movt hbad _) rfl
      have hval : (v >>> 16).setWidth 16 ++ (u.r r).setWidth 16 = v := by
        have hlow : (u.r r).setWidth 16 = v.setWidth 16 := by
          apply BitVec.eq_of_getLsbD_eq
          intro i hi
          simp only [u, set_r, if_true]
          interval_cases i <;> simp
        rw [hlow, halfwords]
      refine ⟨w, by rw [if_pos hbig]; exact h1.append h2, by simp [w, hval], rfl, rfl, ?_⟩
      intro i hi
      simp [w, u, hi]
    · have hval : (((v &&& 0xffff).setWidth 16).setWidth 32) = v := by
        have hle : v.toNat ≤ 0xffff := Nat.not_lt.mp hbig
        apply BitVec.eq_of_toNat_eq
        simp only [BitVec.toNat_setWidth, BitVec.toNat_and]
        have hand : v.toNat &&& (0xffff : BitVec 32).toNat = v.toNat % 2 ^ 16 :=
          Nat.and_two_pow_sub_one_eq_mod v.toNat 16
        rw [hand]
        omega
      refine ⟨u, by rw [if_neg hbig, List.append_nil]; exact h1, ?_, rfl, rfl, hkeep _⟩
      simp only [u, set_r, if_true, hval]

theorem lo_eq (p : Fin 5) : lo p = ((loReg p).toNat : ℤ) := by
  revert p
  decide

theorem hi_eq (p : Fin 5) : hi p = ((hiReg p).toNat : ℤ) := by
  revert p
  decide

theorem pair_lt (p : Fin 5) : loReg p < 10 ∧ hiReg p < 10 := by
  revert p
  decide

theorem runs_movImm_pair (p : Fin 5) (v : BitVec 64) (s : Core) :
    ∃ t, Runs
        (emitMovImm (lo p) (v.setWidth 32) ++ emitMovImm (hi p) ((v >>> 32).setWidth 32)) s t ∧
      val t (.pair p) = v ∧ t.c = s.c ∧ Keeps [.pair p] s t := by
  obtain ⟨u, hu, hlo, hmu, hcu, hku⟩ := runs_emitMovImm (pair_lt p).1 (v.setWidth 32) s
  obtain ⟨t, ht, hhi, hmt, hct, hkt⟩ := runs_emitMovImm (pair_lt p).2 ((v >>> 32).setWidth 32) u
  refine ⟨t, by rw [lo_eq, hi_eq]; exact hu.append ht, ?_, hct.trans hcu, ?_⟩
  · have hlo' : t.r (loReg p) = v.setWidth 32 := by
      rw [hkt (loReg p) (by simp), hlo]
    simp only [val, hlo', hhi, pair_halves]
  · refine keeps_pair (hmt.trans hmu) ?_
    intro i hlo hhi _ _
    rw [hkt i hhi, hku i hlo]

theorem runs_emitMovI64 (l : Loc) (v : BitVec 64) {s : Core} (hfp : aligned (s.r 11)) :
    ∃ t, Runs (emitMovI64 l.row v) s t ∧ val t l = v ∧ Keeps [.pair (l.core 3), l] s t := by
  have hrow : (if isStacked l.row.lo then tmpReg1 else l.row) = (Loc.pair (l.core 3)).row := by
    cases l <;> simp [Loc.core, tmpReg1_eq]
  obtain ⟨u, hu, hval, -, hku⟩ := runs_movImm_pair (l.core 3) v s
  obtain ⟨t, ht, hput, hkt⟩ := runs_putReg64 l 3 (s := u) (by rw [hku.fp]; exact hfp)
  refine ⟨t, ?_, by rw [hput, hval], hku.trans hkt⟩
  simp only [emitMovI64, hrow, row_pair_lo, row_pair_hi]
  exact hu.append ht

theorem signExtend_eq (v : BitVec 32) :
    (if v &&& 0x80000000 ≠ 0 then (v.setWidth 64 ||| 0xffffffff00000000) else v.setWidth 64 :
      BitVec 64) = v.signExtend 64 := by
  have hsign : v &&& 0x80000000 ≠ 0 ↔ v.msb = true := by
    have htwo : (0x80000000 : BitVec 32) = BitVec.twoPow 32 31 := by decide
    rw [BitVec.msb_eq_getLsbD_last, htwo, BitVec.and_twoPow]
    cases v.getLsbD 31 <;> simp
  cases hmsb : v.msb with
  | false =>
      rw [if_neg (by rw [hsign, hmsb]; decide), BitVec.signExtend_eq_setWidth_of_msb_false hmsb]
  | true =>
      rw [if_pos (hsign.mpr hmsb)]
      apply BitVec.eq_of_getLsbD_eq
      intro i hi
      have hmask : (0xffffffff00000000 : BitVec 64).getLsbD i = decide (32 ≤ i) := by
        interval_cases i <;> rfl
      rw [BitVec.getLsbD_or, hmask, BitVec.getLsbD_setWidth, BitVec.getLsbD_signExtend, hmsb]
      by_cases hlo : i < 32
      · simp [hlo, hi, show ¬32 ≤ i by omega]
      · simp [hlo, hi, show 32 ≤ i by omega]
/-! ### Operations on pairs -/

def half (h : Bool) (p : Fin 5) : ℤ := if h then hi p else lo p

def halfReg (h : Bool) (p : Fin 5) : Reg := if h then hiReg p else loReg p

theorem decode_add : ∀ p q : Fin 5,
    decode32 (0xeb100000 ||| regField (lo q) 16 ||| regField (lo p) 8 ||| regField (lo p) 0) =
        some (.data (.dp .add true (loReg p) (loReg q) (loReg p) .lsl 0)) ∧
      decode32 (0xeb400000 ||| regField (hi q) 16 ||| regField (hi p) 8 ||| regField (hi p) 0) =
        some (.data (.dp .adc false (hiReg p) (hiReg q) (hiReg p) .lsl 0)) := by
  decide

theorem decode_sub : ∀ p q : Fin 5,
    decode32 (thumb32SubRegT2 (lo p) (lo p) (lo q) 0 srtypeLsl flagS) =
        some (.data (.dp .sub true (loReg p) (loReg p) (loReg q) .lsl 0)) ∧
      decode32 (thumb32SbcwT2 (hi p) (hi p) (hi q) 0 srtypeLsl flagNos) =
        some (.data (.dp .sbc false (hiReg p) (hiReg p) (hiReg q) .lsl 0)) := by
  decide

theorem decode_and16 : ∀ (h : Bool) (p q : Fin 5), (isLow (half h p) && isLow (half h q)) = true →
    decode16 (thumb16AndRegT1 (half h p) (half h q)) =
      some (.data (.dp .and true (halfReg h p) (halfReg h p) (halfReg h q) .lsl 0)) := by
  decide

theorem decode_and32 : ∀ (h : Bool) (p q : Fin 5),
    decode32 (thumb32AndRegT2 (half h p) (half h p) (half h q) 0 srtypeAsl flagNos) =
      some (.data (.dp .and false (halfReg h p) (halfReg h p) (halfReg h q) .lsl 0)) := by
  decide

/-- What `emit_alu64_reg` emits for an operation between two pairs. -/
def pairOp (op : AluOp) (p q : Fin 5) : Code :=
  emitAluOp (lo p) (lo q) true false op ++ emitAluOp (hi p) (hi q) true true op

def Computes (code : Code) (p q : Fin 5) (f : BitVec 64 → BitVec 64 → BitVec 64) : Prop :=
  ∀ s, ∃ t, Runs code s t ∧ val t (.pair p) = f (val s (.pair p)) (val s (.pair q)) ∧
    Keeps [.pair p] s t

theorem computes_add (p q : Fin 5) : Computes (pairOp .add p q) p q (· + ·) := by
  intro s
  let low := addWithCarry (s.r (loReg q)) (s.r (loReg p)) false
  let u := (s.set (loReg p) low.1).setFlags low
  let t := u.set (hiReg p) (addWithCarry (s.r (hiReg q)) (s.r (hiReg p)) low.2.1).1
  have h1 : execData s (.dp .add true (loReg p) (loReg q) (loReg p) .lsl 0) = some u := rfl
  have h2 : execData u (.dp .adc false (hiReg p) (hiReg q) (hiReg p) .lsl 0) = some t := by
    simp [execData, Core.dp, dpResult, shiftC, t, u]
  refine ⟨t, ?_, ?_, ?_⟩
  · exact (runs_emit4 (decode_add p q).1 h1).append (runs_emit4 (decode_add p q).2 h2)
  · show val t (.pair p) = val s (.pair p) + val s (.pair q)
    rw [BitVec.add_comm]
    simp only [val]
    rw [pair_add]
    simp [t, u, low]
  · refine keeps_pair rfl ?_
    intro i hlo hhi _ _
    simp [t, u, hlo, hhi]

theorem computes_sub (p q : Fin 5) : Computes (pairOp .sub p q) p q (· - ·) := by
  intro s
  let low := addWithCarry (s.r (loReg p)) (~~~(s.r (loReg q))) true
  let u := (s.set (loReg p) low.1).setFlags low
  let t := u.set (hiReg p) (addWithCarry (s.r (hiReg p)) (~~~(s.r (hiReg q))) low.2.1).1
  have h1 : execData s (.dp .sub true (loReg p) (loReg p) (loReg q) .lsl 0) = some u := rfl
  have h2 : execData u (.dp .sbc false (hiReg p) (hiReg p) (hiReg q) .lsl 0) = some t := by
    simp [execData, Core.dp, dpResult, shiftC, t, u]
  refine ⟨t, ?_, ?_, ?_⟩
  · exact (runs_emit4 (decode_sub p q).1 h1).append (runs_emit4 (decode_sub p q).2 h2)
  · show val t (.pair p) = val s (.pair p) - val s (.pair q)
    simp only [val]
    rw [pair_sub]
    simp [t, u, low]
  · refine keeps_pair rfl ?_
    intro i hlo hhi _ _
    simp [t, u, hlo, hhi]

theorem runs_emitAndReg (h : Bool) (p q : Fin 5) (s : Core) :
    ∃ t, Runs (emitAndReg (half h p) (half h q)) s t ∧ t.mem = s.mem ∧
      t.r (halfReg h p) = s.r (halfReg h p) &&& s.r (halfReg h q) ∧
      ∀ i ≠ halfReg h p, t.r i = s.r i := by
  unfold emitAndReg
  split
  · rename_i hlow
    exact ⟨_, runs_emit2 (decode_and16 h p q hlow) rfl, rfl, by simp [dpResult, shiftC],
      fun i hi => by simp [hi]⟩
  · exact ⟨_, runs_emit4 (decode_and32 h p q) rfl, rfl, by simp [dpResult, shiftC],
      fun i hi => by simp [hi]⟩

theorem computes_and (p q : Fin 5) : Computes (pairOp .and p q) p q (· &&& ·) := by
  intro s
  obtain ⟨u, hu, hmu, hlo, hku⟩ := runs_emitAndReg false p q s
  obtain ⟨t, ht, hmt, hhi, hkt⟩ := runs_emitAndReg true p q u
  simp only [halfReg, if_true, Bool.false_eq_true, if_false] at hlo hku hhi hkt
  refine ⟨t, hu.append ht, ?_, ?_⟩
  · show val t (.pair p) = val s (.pair p) &&& val s (.pair q)
    simp only [val]
    rw [hhi, hkt (loReg p) (by simp), hlo, hku (hiReg p) (by simp), hku (hiReg q) (by simp),
      BitVec.and_append]
  · refine keeps_pair (hmt.trans hmu) ?_
    intro i hlo hhi _ _
    rw [hkt i hhi, hku i hlo]

/-! ### Products -/

theorem decode_mul : ∀ p q : Fin 5,
    decode32 (thumb32MulT2 armIp (lo p) (hi q)) =
        some (.data (.mul 12 (loReg p) (hiReg q))) ∧
      decode32 (thumb32MulT2 armLr (hi p) (lo q)) =
        some (.data (.mul 14 (hiReg p) (loReg q))) ∧
      decode32 (thumb32UmullT2 armIp (hi p) (lo p) (lo q)) =
        some (.data (.umull 12 (hiReg p) (loReg p) (loReg q))) := by
  decide

theorem decode_add_lr : decode16 (thumb16AddRegT2 armLr armIp) = some (.data (.addReg 14 12)) ∧
    ∀ p : Fin 5, decode16 (thumb16AddRegT2 (hi p) armLr) =
      some (.data (.addReg (hiReg p) 14)) := by
  decide

/-- The products of `emit_a32_mul_r64`. -/
def mulCode (p q : Fin 5) : Code :=
  emit4 (thumb32MulT2 armIp (lo p) (hi q)) ++ emit4 (thumb32MulT2 armLr (hi p) (lo q)) ++
    emit2 (thumb16AddRegT2 armLr armIp) ++ emit4 (thumb32UmullT2 armIp (hi p) (lo p) (lo q)) ++
    emit2 (thumb16AddRegT2 (hi p) armLr)

/-- The product is left in the high register of the pair and in `IP`. -/
theorem runs_mulCode (p q : Fin 5) (s : Core) :
    ∃ t, Runs (mulCode p q) s t ∧
      t.r (hiReg p) ++ t.r 12 = val s (.pair p) * val s (.pair q) ∧ Keeps [.pair p] s t := by
  let low : BitVec 64 := (s.r (loReg p)).setWidth 64 * (s.r (loReg q)).setWidth 64
  let s₁ := s.set 12 (s.r (loReg p) * s.r (hiReg q))
  let s₂ := s₁.set 14 (s.r (hiReg p) * s.r (loReg q))
  let s₃ := s₂.set 14 (s.r (hiReg p) * s.r (loReg q) + s.r (loReg p) * s.r (hiReg q))
  let s₄ := (s₃.set 12 (low.setWidth 32)).set (hiReg p) ((low >>> 32).setWidth 32)
  let s₅ := s₄.set (hiReg p) ((low >>> 32).setWidth 32 +
    (s.r (hiReg p) * s.r (loReg q) + s.r (loReg p) * s.r (hiReg q)))
  have h1 : execData s (.mul 12 (loReg p) (hiReg q)) = some s₁ := rfl
  have h2 : execData s₁ (.mul 14 (hiReg p) (loReg q)) = some s₂ := by
    simp [execData, s₂, s₁]
  have h3 : execData s₂ (.addReg 14 12) = some s₃ := by
    simp [execData, s₃, s₂, s₁]
  have h4 : execData s₃ (.umull 12 (hiReg p) (loReg p) (loReg q)) = some s₄ := by
    simp [execData, s₄, s₃, s₂, s₁, low]
  have h5 : execData s₄ (.addReg (hiReg p) 14) = some s₅ := by
    simp [execData, s₅, s₄, s₃]
  obtain ⟨hd1, hd2, hd4⟩ := decode_mul p q
  refine ⟨s₅, ?_, ?_, ?_⟩
  · exact ((((runs_emit4 hd1 h1).append (runs_emit4 hd2 h2)).append
      (runs_emit2 decode_add_lr.1 h3)).append (runs_emit4 hd4 h4)).append
        (runs_emit2 (decode_add_lr.2 p) h5)
  · simp only [val]
    rw [pair_mul]
    simp [s₅, s₄, low]
  · refine keeps_pair rfl ?_
    intro i hlo hhi h12 h14
    simp only [s₅, s₄, s₃, s₂, s₁, set_r, hhi, h12, h14, if_false]

/-! ### Comparison -/

theorem decode_cmp : ∀ (h : Bool) (p q : Fin 5), ∃ x, emitCmpReg (half h p) (half h q) = emit2 x ∧
    decode16 x = some (.data (.cmp (halfReg h p) (halfReg h q))) := by
  have hdec : ∀ (h : Bool) (p q : Fin 5),
      decode16 (if isLow (half h p) && isLow (half h q) then thumb16CmpRegT1 (half h p) (half h q)
        else thumb16CmpRegT2 (half h p) (half h q)) =
          some (.data (.cmp (halfReg h p) (halfReg h q))) := by
    decide
  refine fun h p q => ⟨_, ?_, hdec h p q⟩
  unfold emitCmpReg
  split <;> rfl

theorem runs_emitCmpReg (h : Bool) (p q : Fin 5) (s : Core) :
    Runs (emitCmpReg (half h p) (half h q)) s
      (s.setFlags (addWithCarry (s.r (halfReg h p)) (~~~(s.r (halfReg h q))) true)) := by
  obtain ⟨x, hx, hd⟩ := decode_cmp h p q
  rw [hx]
  exact runs_emit2 hd rfl

theorem decode_sbcs : ∀ p q : Fin 5,
    decode32 (thumb32SbcwT2 armIp (hi p) (hi q) 0 srtypeLsl flagS) =
      some (.data (.dp .sbc true 12 (hiReg p) (hiReg q) .lsl 0)) := by
  decide

theorem keeps_nil {s t : Core} (hmem : t.mem = s.mem)
    (hreg : ∀ i, i ≠ 12 → i ≠ 14 → t.r i = s.r i) : Keeps [] s t := by
  have hfp := hreg 11 (by decide) (by decide)
  refine ⟨hfp, ?_, fun a _ => by rw [hmem]⟩
  intro l _
  cases l with
  | pair q =>
      simp only [val]
      rw [hreg (hiReg q) (by simp) (by simp), hreg (loReg q) (by simp) (by simp)]
  | slot j => simp only [val, hmem, hfp]

/-- The two comparisons leave the signed order of the pairs in the flags. -/
theorem runs_cmp (p q : Fin 5) (s : Core) :
    ∃ t, Runs (emitCmpReg (lo p) (lo q) ++
        emit4 (thumb32SbcwT2 armIp (hi p) (hi q) 0 srtypeLsl flagS)) s t ∧
      (t.n != t.v) = (val s (.pair p)).slt (val s (.pair q)) ∧ Keeps [] s t := by
  let low := addWithCarry (s.r (loReg p)) (~~~(s.r (loReg q))) true
  let high := addWithCarry (s.r (hiReg p)) (~~~(s.r (hiReg q))) low.2.1
  let u := s.setFlags low
  let t := (u.set 12 high.1).setFlags high
  have h2 : execData u (.dp .sbc true 12 (hiReg p) (hiReg q) .lsl 0) = some t := rfl
  refine ⟨t, ?_, ?_, ?_⟩
  · exact (runs_emitCmpReg false p q s).append (runs_emit4 (decode_sbcs p q) h2)
  · simp only [val]
    rw [pair_slt]
    rfl
  · refine keeps_nil rfl ?_
    intro i h12 _
    simp only [t, u, setFlags_r, set_r, h12, if_false]

end RapidPatch.Jit
