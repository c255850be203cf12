import Mathlib.Data.Nat.ModEq
import Mathlib.Tactic.Linarith
import RapidPatch.Jit.Alu32
import RapidPatch.Vm.Division

/-!
The translation of divisions.

One emitter serves both classes. It divides the low words and puts a low word
back: the high word of the destination is neither read nor cleared. An
immediate divisor is cut to 16 bits. For a remainder the fields of `MLS` are
exchanged: the code subtracts the product of the dividend and the divisor
from the quotient.
-/

namespace RapidPatch.Jit

open RapidPatch.Vm RapidPatch.Thumb RapidPatch.Support

/-! ### What the code does -/

/-- The divisor the code uses. -/
def divisorWord (source : Src) (x : BitVec 64) (imm : BitVec 32) : Word :=
  match source with
  | .imm => (imm.setWidth 16).setWidth 32
  | .reg => loWord x

def divModWord (isDiv : Bool) (x z : Word) : Word := if isDiv then x / z else x / z - x * z

def divModCode (isDiv : Bool) (rd rt : ℤ) : Code :=
  if isDiv then emit4 (0xfbb0f0f0 ||| regField rd 16 ||| regField rd 8 ||| regField rt 0)
  else
    emit4 (0xfbb0f0f0 ||| regField rd 16 ||| regField armIp 8 ||| regField rt 0) ++
      emit4 (0xfb000010 ||| regField rd 16 ||| regField armIp 12 ||| regField rd 8 |||
        regField rt 0)

def getDivisor (source : Src) (e : Loc) (imm : BitVec 32) : Code :=
  match source with
  | .imm => emitMovImm tmpReg2.hi ((imm.setWidth 16).setWidth 32)
  | .reg => (armBpfGetReg32 e.row.lo tmpReg2.hi).1

def divisorReg (source : Src) (e : Loc) : Reg :=
  match source with
  | .imm => 9
  | .reg => e.word false 9

theorem emitU32DivMod_code (isDiv : Bool) {source : Src} {d e : Loc} {src : Row}
    (hrow : source = .reg → src = e.row) (imm : BitVec 32) :
    emitU32DivMod d.row src isDiv source (imm.setWidth 16) =
      (armBpfGetReg32 d.row.lo tmpReg2.lo).1 ++ getDivisor source e imm ++
        divModCode isDiv ((d.word false 8).toNat : ℤ) ((divisorReg source e).toNat : ℤ) ++
        armBpfPutReg32 d.row.lo ((d.word false 8).toNat : ℤ) := by
  have hdst : (armBpfGetReg32 d.row.lo tmpReg2.lo).2 = ((d.word false 8).toNat : ℤ) :=
    getReg32_word d false 8
  have hsrc : (armBpfGetReg32 e.row.lo tmpReg2.hi).2 = ((e.word false 9).toNat : ℤ) :=
    getReg32_word e false 9
  have hcode : ∀ rd rt : ℤ, divModCode isDiv rd rt =
      if isDiv then emit4 (0xfbb0f0f0 ||| regField rd 16 ||| regField rd 8 ||| regField rt 0)
      else
        emit4 (0xfbb0f0f0 ||| regField rd 16 ||| regField armIp 8 ||| regField rt 0) ++
          emit4 (0xfb000010 ||| regField rd 16 ||| regField armIp 12 ||| regField rd 8 |||
            regField rt 0) := fun _ _ => rfl
  cases source with
  | imm => simp only [emitU32DivMod, hdst, ← hcode, getDivisor, divisorReg]; rfl
  | reg => simp only [emitU32DivMod, hrow rfl, hdst, hsrc, ← hcode, getDivisor, divisorReg]

theorem decode_udiv : ∀ rd rn rm : Reg, rd ∈ [rn, 12] → rn < 10 → rm < 10 →
    decode32 (0xfbb0f0f0 ||| regField rn.toNat 16 ||| regField rd.toNat 8 |||
      regField rm.toNat 0) = some (.data (.udiv rd rn rm)) := by
  decide +kernel

theorem decode_mls : ∀ rd rm : Reg, rd < 10 → rm < 10 →
    decode32 (0xfb000010 ||| regField rd.toNat 16 ||| regField armIp 12 |||
      regField rd.toNat 8 ||| regField rm.toNat 0) = some (.data (.mls rd rd rm 12)) := by
  decide +kernel

theorem sets_udiv {rd rn rm : Reg} (hd : rd ∈ [rn, 12]) (hn : rn < 10) (hm : rm < 10) :
    Sets (emit4 (0xfbb0f0f0 ||| regField rn.toNat 16 ||| regField rd.toNat 8 |||
      regField rm.toNat 0)) rd fun s => s.r rn / s.r rm :=
  sets_emit4 (decode_udiv rd rn rm hd hn hm) fun _ => ⟨_, rfl, rfl, rfl⟩

theorem sets_mls {rd rm : Reg} (hd : rd < 10) (hm : rm < 10) :
    Sets (emit4 (0xfb000010 ||| regField rd.toNat 16 ||| regField armIp 12 |||
      regField rd.toNat 8 ||| regField rm.toNat 0)) rd fun s => s.r 12 - s.r rd * s.r rm :=
  sets_emit4 (decode_mls rd rm hd hm) fun _ => ⟨_, rfl, rfl, rfl⟩

theorem runs_divModCode (isDiv : Bool) {rd rt : Reg} (hd : rd < 10) (ht : rt < 10) (s : Core) :
    ∃ t, Runs (divModCode isDiv rd.toNat rt.toNat) s t ∧ t.mem = s.mem ∧
      t.r rd = divModWord isDiv (s.r rd) (s.r rt) ∧ ∀ i, i ≠ rd → i ≠ 12 → t.r i = s.r i := by
  cases isDiv with
  | true =>
      obtain ⟨t, hrun, hm, hv, hk⟩ := sets_udiv List.mem_cons_self hd ht s
      exact ⟨t, hrun, hm, hv, fun i hi _ => hk i hi⟩
  | false =>
      have hne : ∀ r : Reg, r < 10 → r ≠ 12 := by decide
      obtain ⟨u, hu, hmu, hvu, hku⟩ := sets_udiv (show (12 : Reg) ∈ [rd, 12] by simp) hd ht s
      obtain ⟨t, hrun, hm, hv, hk⟩ := sets_mls hd ht u
      refine ⟨t, hu.append hrun, hm.trans hmu, ?_, ?_⟩
      · simp only [hv, hvu, hku rd (hne rd hd), hku rt (hne rt ht)]
        rfl
      · intro i hi h12
        rw [hk i hi, hku i h12]

theorem runs_getDivisor (source : Src) (e : Loc) (imm : BitVec 32) (s : Core) :
    ∃ t, Runs (getDivisor source e imm) s t ∧ t.mem = s.mem ∧
      t.r (divisorReg source e) = divisorWord source (val s e) imm ∧
      ∀ i ≠ 9, t.r i = s.r i := by
  cases source with
  | imm =>
      obtain ⟨t, ht, hval, hm, -, hk⟩ :=
        runs_emitMovImm (show (9 : Reg) < 10 by decide) ((imm.setWidth 16).setWidth 32) s
      exact ⟨t, ht, hm, hval, hk⟩
  | reg =>
      exact ⟨_, runs_getReg32 e false (show badReg 9 = false by decide) s,
        loadWord_mem e false 9 s, loadWord_word e false 9 s,
        fun i hi => loadWord_other e false s hi⟩

theorem hiReg_ne_nine {d : Loc} (hd : ¬d.IsTemp) {p : Fin 5} (hp : d = .pair p) :
    hiReg p ≠ 9 := by
  have hne : ∀ p : Fin 5, p ≠ 4 → hiReg p ≠ 9 := by decide
  refine hne p ?_
  rintro rfl
  exact hd (Or.inr hp)

theorem writes_divMod (isDiv : Bool) {source : Src} {d e : Loc} {src : Row}
    (hrow : source = .reg → src = e.row) (hd : ¬d.IsTemp) (he : ¬e.IsTemp) (imm : BitVec 32)
    (s : Core) :
    ∃ t, Runs (emitU32DivMod d.row src isDiv source (imm.setWidth 16)) s t ∧
      Writes d (hiWord (val s d) ++
        divModWord isDiv (loWord (val s d)) (divisorWord source (val s e) imm)) s t := by
  have hlt : ∀ p : Fin 5, loReg p < 10 ∧ loReg p ≠ 9 ∧ badReg (loReg p) = false := by decide
  have hrt : divisorReg source e < 10 := by
    cases source with
    | imm => exact (by decide : (9 : Reg) < 10)
    | reg =>
        cases e with
        | pair q => exact (hlt q).1
        | slot j => exact (by decide : (9 : Reg) < 10)
  obtain ⟨hrd, hrd9, hbad⟩ := hlt (d.core 4)
  have hrun₁ := runs_getReg32 d false (show badReg 8 = false by decide) s
  have hk₁ : Keeps [.pair 4] s (loadWord d false 8 s) :=
    keeps_pair (loadWord_mem d false 8 s) fun i hlo _ _ _ => loadWord_other d false s hlo
  obtain ⟨s₂, hrun₂, hm₂, hz, hk₂⟩ := runs_getDivisor source e imm (loadWord d false 8 s)
  obtain ⟨s₃, hrun₃, hm₃, hv, hk₃⟩ := runs_divModCode isDiv hrd hrt s₂
  obtain ⟨t, hrun₄, hrt₄, hmt₄⟩ := runs_putReg32 d false hbad s₃
  obtain ⟨hput, hkt⟩ := keeps_putWord d false (loReg (d.core 4)) hrt₄ hmt₄
  have hkeep : Keeps [.pair 4, .pair (d.core 4)] (loadWord d false 8 s) s₃ := by
    refine keeps_pairs (hm₃.trans hm₂) fun i _ h9 hlo _ h12 _ => ?_
    rw [hk₃ i hlo h12, hk₂ i h9]
  have hk := hk₁.trans hkeep
  have hlow : s₂.r (loReg (d.core 4)) = loWord (val s d) := by
    rw [hk₂ _ hrd9, ← word_eq_core]
    exact loadWord_word d false 8 s
  have hhigh : hiWord (val s₃ d) = hiWord (val s d) := by
    cases d with
    | pair p =>
        simp only [val, hiWord_pair]
        have h12 : ∀ p : Fin 5, hiReg p ≠ 12 := by decide
        rw [hk₃ _ (hiReg_ne_loReg p _) (h12 p), hk₂ _ (hiReg_ne_nine hd rfl)]
        rfl
    | slot j => rw [hk.same _ (by simp)]
  rw [hk₁.same e (by simpa using fun h => he (Or.inr h))] at hz
  refine ⟨t, ?_, (hk.trans hkt).writes ?_ ?_⟩
  · rw [emitU32DivMod_code isDiv hrow, word_eq_core]
    exact ((hrun₁.append hrun₂).append hrun₃).append hrun₄
  · intro l' hl'
    cases d <;> simp [Loc.core, Loc.IsTemp] at hl' ⊢ <;> tauto
  · rw [hput, setWord, hhigh, hv, hlow, hz]
    rfl

/-! ### Quotients by a divisor that is cut -/

section Cut

variable {D d z Y M : ℕ}

/-- The quotient of `d` by the cut divisor `z` is the quotient by `Y`. -/
def QuotientKept (d z Y : ℕ) : Prop := z = Y ∨ d < z ∨ z = 0 ∧ d < Y

/-- What the code computes is the remainder of `D` by `Y`, in the low word. -/
def RemainderKept (D z Y : ℕ) : Prop :=
  D * (z + 1) ≡ D % 2 ^ 32 / z + Y * (D / Y) [MOD 2 ^ 32]

instance (d z Y : ℕ) : Decidable (QuotientKept d z Y) := by
  unfold QuotientKept
  infer_instance

instance (D z Y : ℕ) : Decidable (RemainderKept D z Y) := by
  unfold RemainderKept
  infer_instance

/-- A cut divisor is less than half of the divisor. -/
theorem cut_lt (hM : 2 ≤ M) (hz : z = Y % M) (hne : z ≠ Y) : 2 * z < Y := by
  have hlt : z < M := hz ▸ Nat.mod_lt Y (by omega)
  have hle : M ≤ Y := by
    by_contra h
    exact hne (by rw [hz, Nat.mod_eq_of_lt (by omega)])
  have hq : 1 ≤ Y / M := (Nat.one_le_div_iff (by omega)).mpr hle
  have hsum := Nat.div_add_mod Y M
  have hmul : M * 1 ≤ M * (Y / M) := Nat.mul_le_mul_left M hq
  omega

theorem quotientKept_iff (hM : 2 ≤ M) (hz : z = Y % M) (hY : Y ≠ 0) :
    d / Y = d / z ↔ QuotientKept d z Y := by
  unfold QuotientKept
  by_cases hne : z = Y
  · simp [hne]
  · have hcut := cut_lt hM hz hne
    rcases Nat.eq_zero_or_pos z with hz0 | hzpos
    · simp [hz0, hY, hY.symm]
    · by_cases hlt : d < z
      · rw [Nat.div_eq_of_lt hlt, Nat.div_eq_of_lt (by omega)]
        simp [hlt]
      · -- the quotient by `Y` is at most half of the other one
        have hone : 1 ≤ d / z := (Nat.one_le_div_iff hzpos).mpr (by omega)
        have hupper : d < (d / z + 1) * z := Nat.lt_mul_of_div_lt (Nat.lt_succ_self _) hzpos
        have hlower : d / Y * Y ≤ d := Nat.div_mul_le_self d Y
        have hdiff : d / Y ≠ d / z := by
          intro h
          rw [h] at hlower
          nlinarith
        simp [hne, hlt, hdiff, hzpos.ne']

/-- A quotient that keeps the high word is by one. -/
theorem wideQuotient_iff (hY : Y ≠ 0) (hz : Y = 1 → z = 1) (hD : 2 ^ 32 ≤ D) :
    D / Y = 2 ^ 32 * (D / 2 ^ 32) + D % 2 ^ 32 / z ↔ Y = 1 := by
  constructor
  · intro h
    by_contra hne
    have hhalf : D / Y ≤ D / 2 := Nat.div_le_div_left (by omega) (by decide)
    have hle : 2 ^ 32 * (D / 2 ^ 32) ≤ D / Y := h ▸ Nat.le_add_right _ _
    omega
  · intro h
    rw [hz h, h, Nat.div_one, Nat.div_one, Nat.div_add_mod]

/-- The high word of a remainder is the high word of the dividend. -/
theorem highRemainder_iff (hY : Y ≠ 0) : D % Y / 2 ^ 32 = D / 2 ^ 32 ↔ D < 2 ^ 32 ∨ D < Y := by
  constructor
  · intro h
    by_contra! hge
    have hlt := Nat.mod_lt D (Nat.pos_of_ne_zero hY)
    have hsub : D % Y ≤ D - Y := by
      rw [Nat.mod_eq_sub_mod hge.2]
      exact Nat.mod_le _ _
    omega
  · rintro (h | h)
    · have hle := Nat.mod_le D Y
      omega
    · rw [Nat.mod_eq_of_lt h]

theorem remainderKept_iff {x z : Word} (hx : x.toNat = D % 2 ^ 32) :
    x / z - x * z = BitVec.ofNat 32 (D % Y) ↔ RemainderKept D z.toNat Y := by
  have hnat : x / z - x * z = BitVec.ofNat 32 (D % Y) ↔
      x.toNat / z.toNat ≡ D % Y + x.toNat * z.toNat [MOD 2 ^ 32] := by
    have hlt : x.toNat / z.toNat < 2 ^ 32 := (Nat.div_le_self _ _).trans_lt x.isLt
    rw [BitVec.sub_eq_iff_eq_add, ← BitVec.toNat_inj, BitVec.toNat_udiv, BitVec.toNat_add,
      BitVec.toNat_mul, BitVec.toNat_ofNat, ← Nat.add_mod, Nat.ModEq, Nat.mod_eq_of_lt hlt]
  have hD : x.toNat ≡ D [MOD 2 ^ 32] := by
    rw [hx]
    exact Nat.mod_modEq D _
  have hsum : D % Y + x.toNat * z.toNat + Y * (D / Y) ≡ D * (z.toNat + 1) [MOD 2 ^ 32] := by
    calc D % Y + x.toNat * z.toNat + Y * (D / Y)
        = D + x.toNat * z.toNat := by have := Nat.mod_add_div D Y; omega
      _ ≡ D + D * z.toNat [MOD 2 ^ 32] := (hD.mul_right _).add_left D
      _ = D * (z.toNat + 1) := by ring
  rw [hnat, RemainderKept, ← hx]
  constructor
  · intro h
    exact hsum.symm.trans (h.add_right _).symm
  · intro h
    exact Nat.ModEq.add_right_cancel' _ (h.symm.trans hsum.symm)

end Cut

/-! ### The value the instruction asks for -/

theorem hiWord_eq_zero_iff (v : BitVec 64) : hiWord v = 0 ↔ v.toNat < 2 ^ 32 := by
  rw [← BitVec.toNat_inj, toNat_hiWord]
  show v.toNat / 2 ^ 32 = 0 ↔ _
  omega

section Values

variable {v : BitVec 64} {z : Word} {M : ℕ}

theorem quotient32_iff {y : Word} (hM : 2 ≤ M) (hz : z.toNat = y.toNat % M) (hy : y.toNat ≠ 0) :
    (isaAlu .div (loWord v) y).setWidth 64 = hiWord v ++ divModWord true (loWord v) z ↔
      v.toNat < 2 ^ 32 ∧ QuotientKept v.toNat z.toNat y.toNat := by
  rw [← udiv_eq_isaAlu, setWidth_eq_pair, pair_eq_iff, eq_comm, hiWord_eq_zero_iff]
  refine and_congr_right fun hlt => ?_
  show loWord v / y = loWord v / z ↔ _
  rw [← BitVec.toNat_inj, BitVec.toNat_udiv, BitVec.toNat_udiv, toNat_loWord,
    Nat.mod_eq_of_lt hlt, quotientKept_iff hM hz hy]

theorem quotient64_iff {y : BitVec 64} (hM : 2 ≤ M) (hz : z.toNat = y.toNat % M)
    (hy : y.toNat ≠ 0) :
    isaAlu .div v y = hiWord v ++ divModWord true (loWord v) z ↔
      y.toNat = 1 ∨ v.toNat < 2 ^ 32 ∧ QuotientKept v.toNat z.toNat y.toNat := by
  have hone : y.toNat = 1 → z.toNat = 1 := fun h => by rw [hz, h, Nat.mod_eq_of_lt (by omega)]
  have hnat : isaAlu .div v y = hiWord v ++ divModWord true (loWord v) z ↔
      v.toNat / y.toNat = 2 ^ 32 * (v.toNat / 2 ^ 32) + v.toNat % 2 ^ 32 / z.toNat := by
    rw [← udiv_eq_isaAlu, ← BitVec.toNat_inj, toNat_pair, toNat_hiWord, ← toNat_loWord]
    rfl
  rw [hnat]
  by_cases hlt : v.toNat < 2 ^ 32
  · rw [Nat.div_eq_of_lt hlt, Nat.mod_eq_of_lt hlt, Nat.mul_zero, Nat.zero_add,
      quotientKept_iff hM hz hy]
    refine ⟨fun h => Or.inr ⟨hlt, h⟩, ?_⟩
    rintro (h | h)
    · exact Or.inl ((hone h).trans h.symm)
    · exact h.2
  · rw [wideQuotient_iff hy hone (Nat.not_lt.mp hlt)]
    exact ⟨Or.inl, fun h => h.resolve_right fun hr => hlt hr.1⟩

theorem remainder32_iff {y : Word} :
    (isaAlu .mod (loWord v) y).setWidth 64 = hiWord v ++ divModWord false (loWord v) z ↔
      v.toNat < 2 ^ 32 ∧ RemainderKept v.toNat z.toNat y.toNat := by
  rw [setWidth_eq_pair, pair_eq_iff, eq_comm, hiWord_eq_zero_iff]
  refine and_congr_right fun hlt => ?_
  rw [← remainderKept_iff (toNat_loWord v), eq_comm]
  show _ = BitVec.ofNat 32 ((loWord v).toNat % y.toNat) ↔ _
  rw [toNat_loWord, Nat.mod_eq_of_lt hlt]
  rfl

theorem remainder64_iff {y : BitVec 64} (hy : y.toNat ≠ 0) :
    isaAlu .mod v y = hiWord v ++ divModWord false (loWord v) z ↔
      (v.toNat < 2 ^ 32 ∨ v.toNat < y.toNat) ∧ RemainderKept v.toNat z.toNat y.toNat := by
  have hrem : (isaAlu .mod v y).toNat = v.toNat % y.toNat := by
    rw [← umod_eq_isaAlu]
    exact BitVec.toNat_umod
  have hhigh : hiWord (isaAlu .mod v y) = hiWord v ↔ v.toNat < 2 ^ 32 ∨ v.toNat < y.toNat := by
    rw [← BitVec.toNat_inj, toNat_hiWord, toNat_hiWord, hrem, highRemainder_iff hy]
  have hlow : loWord (isaAlu .mod v y) = BitVec.ofNat 32 (v.toNat % y.toNat) := by
    apply BitVec.eq_of_toNat_eq
    rw [toNat_loWord, hrem, BitVec.toNat_ofNat]
  rw [← pair_words (isaAlu .mod v y), pair_eq_iff, hhigh, hlow, eq_comm (a := BitVec.ofNat 32 _),
    ← remainderKept_iff (toNat_loWord v)]
  rfl

end Values

/-! ### Where the translation is right -/

/-- The divisor the code uses for an instruction. -/
def cutDivisor (i : Inst) (ρ : Regs) : Word :=
  match i.op with
  | .alu _ source | .alu64 _ source => divisorWord source (ρ i.src) i.imm
  | _ => 0

/-- Where the translation of a division is right. -/
def DivideRight (i : Inst) (ρ : Regs) : Prop :=
  let x := (ρ i.dst).toNat
  let y := i.isaDivisor ρ
  let z := (cutDivisor i ρ).toNat
  match i.op with
  | .alu .div _ => x < 2 ^ 32 ∧ QuotientKept x z y
  | .alu64 .div _ => y = 1 ∨ x < 2 ^ 32 ∧ QuotientKept x z y
  | .alu .mod _ => x < 2 ^ 32 ∧ RemainderKept x z y
  | .alu64 .mod _ => (x < 2 ^ 32 ∨ x < y) ∧ RemainderKept x z y
  | _ => False

instance (i : Inst) (ρ : Regs) : Decidable (DivideRight i ρ) := by
  unfold DivideRight
  generalize i.op = o
  rcases o with ⟨op, _⟩ | ⟨op, _⟩
  · rcases op <;> infer_instance
  · rcases op <;> infer_instance
  all_goals infer_instance

theorem toNat_signExtend_mod (imm : BitVec 32) :
    (imm.signExtend 64).toNat % 2 ^ 16 = imm.toNat % 2 ^ 16 := by
  rw [BitVec.toNat_signExtend, BitVec.toNat_setWidth]
  split <;> omega

/-- An immediate divisor keeps 16 bits, a register 32. -/
theorem cutDivisor_eq {i : Inst} (hop : i.op.isDivision = true) (ρ : Regs) :
    ∃ M, 2 ≤ M ∧ (cutDivisor i ρ).toNat = i.isaDivisor ρ % M := by
  have himm : ((i.imm.setWidth 16).setWidth 32 : Word).toNat = i.imm.toNat % 2 ^ 16 := by
    simp only [BitVec.toNat_setWidth]
    omega
  cases hkind : i.op with
  | alu op source =>
      simp only [cutDivisor, Inst.isaDivisor, hkind, operand32_eq]
      cases source with
      | imm => exact ⟨2 ^ 16, by decide, himm⟩
      | reg => exact ⟨2 ^ 32, by decide, (Nat.mod_eq_of_lt (loWord (ρ i.src)).isLt).symm⟩
  | alu64 op source =>
      simp only [cutDivisor, Inst.isaDivisor, hkind, operand64_eq]
      cases source with
      | imm => exact ⟨2 ^ 16, by decide, himm.trans (toNat_signExtend_mod i.imm).symm⟩
      | reg => exact ⟨2 ^ 32, by decide, toNat_loWord _⟩
  | _ =>
      rw [hkind] at hop
      cases hop

section Instructions

variable {ρ : Regs} {d e : BitVec 4} {source : Src} {src : Row}

theorem achieves_divMod_iff (isDiv : Bool) (hd : d < 10) (he : source = .reg → e < 10)
    (hrow : source = .reg → src = (locOf e).row) (imm : BitVec 32) (v : BitVec 64) :
    Achieves (emitU32DivMod (locOf d).row src isDiv source (imm.setWidth 16)) ρ
        (Function.update ρ d v) ↔
      v = hiWord (ρ d) ++ divModWord isDiv (loWord (ρ d)) (divisorWord source (ρ e) imm) := by
  apply achieves_update_iff hd
  intro s hs
  obtain ⟨t, ht, hw⟩ :=
    writes_divMod isDiv hrow (locOf_not_temp d) (locOf_not_temp e) imm s
  have hdivisor : divisorWord source (val s (locOf e)) imm = divisorWord source (ρ e) imm := by
    cases source with
    | imm => rfl
    | reg => rw [hs.regs e (he rfl)]
  rw [hs.regs d hd, hdivisor] at hw
  exact ⟨t, ht, hw⟩

end Instructions

/-- The translation of a division by a number other than zero is right exactly
where `DivideRight` says. -/
theorem divide_right_iff (p : Input) (pass : Pass) (idx pc : ℕ) (ρ : Regs)
    (hop : (p.insts pc).op.isDivision = true) (hdst : (p.insts pc).dst < 10)
    (hsrc : (p.insts pc).op.usesSrc = true → (p.insts pc).src < 10)
    (hdivisor : (p.insts pc).isaDivisor ρ ≠ 0) :
    Achieves (buildInst p pass idx pc).code ρ
        (isaExec p.insts (p.insts pc) (BitVec.ofNat 16 pc) ρ).2 ↔
      DivideRight (p.insts pc) ρ := by
  obtain ⟨M, hM, hcut⟩ := cutDivisor_eq hop ρ
  cases hkind : (p.insts pc).op with
  | alu op source =>
      rw [hkind] at hop hsrc
      have hsrc' : source = .reg → (p.insts pc).src < 10 := by
        rintro rfl
        exact hsrc rfl
      have hrow : source = .reg → bpf2a32 p.behind (p.insts pc).src =
          (locOf (p.insts pc).src).row := fun h => bpf2a32_eq_row p.behind (hsrc' h)
      simp only [DivideRight, cutDivisor, Inst.isaDivisor, hkind] at hcut hdivisor ⊢
      simp only [buildInst, isaExec, hkind, bpf2a32_eq_row p.behind hdst, zeroExtended_eq]
      cases op with
      | div =>
          exact (achieves_divMod_iff true hdst hsrc' hrow _ _).trans
            (quotient32_iff hM hcut hdivisor)
      | mod => exact (achieves_divMod_iff false hdst hsrc' hrow _ _).trans remainder32_iff
      | _ => cases hop
  | alu64 op source =>
      rw [hkind] at hop hsrc
      have hsrc' : source = .reg → (p.insts pc).src < 10 := by
        rintro rfl
        exact hsrc rfl
      have hrow : source = .reg → bpf2a32 p.behind (p.insts pc).src =
          (locOf (p.insts pc).src).row := fun h => bpf2a32_eq_row p.behind (hsrc' h)
      simp only [DivideRight, cutDivisor, Inst.isaDivisor, hkind] at hcut hdivisor ⊢
      simp only [buildInst, isaExec, hkind, bpf2a32_eq_row p.behind hdst]
      cases op with
      | div =>
          exact (achieves_divMod_iff true hdst hsrc' hrow _ _).trans
            (quotient64_iff hM hcut hdivisor)
      | mod =>
          exact (achieves_divMod_iff false hdst hsrc' hrow _ _).trans (remainder64_iff hdivisor)
      | _ => cases hop
  | _ =>
      rw [hkind] at hop
      cases hop

/-- `MOD64_IMM r0, y`. -/
def mod64R0 (y : BitVec 32) : Inst :=
  { opcode := (Opcode.alu64 .mod .imm).byte, dst := 0, src := 0, offset := 0, imm := y }

theorem divide_mod64_by_one :
    Achieves (buildInst (single (mod64R0 1)) genPass 0 0).code (fun _ => 7)
      (isaExec (single (mod64R0 1)).insts (mod64R0 1) 0 fun _ => 7).2 :=
  (divide_right_iff (single (mod64R0 1)) genPass 0 0 (fun _ => 7) (by decide) (by decide)
    (by decide) (by decide)).mpr (by decide)

theorem mod64_seven_by_three :
    ¬Achieves (buildInst (single (mod64R0 3)) genPass 0 0).code (fun _ => 7)
      (isaExec (single (mod64R0 3)).insts (mod64R0 3) 0 fun _ => 7).2 := by
  show ¬Achieves (emitU32DivMod (locOf 0).row (locOf 0).row false .imm
      ((3 : BitVec 32).setWidth 16))
    (fun _ => 7) (Function.update (fun _ => 7) 0 1)
  exact (achieves_divMod_iff (e := 0) false (by decide) (by decide) (by decide) 3 1).not.mpr
    (by decide)

end RapidPatch.Jit
