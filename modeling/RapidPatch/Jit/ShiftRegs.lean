import RapidPatch.Jit.LeftShift

/-!
The translation of the 64-bit shifts by a register.

The sequences compute both differences of the amount and 32, one of which is
negative, and rely on a shift by the low byte of a negative number giving
zero. The left shift moves the bits between the words the wrong way, and the
right shifts overwrite the high word before they shift it a second time. So
the right shifts lose the high word, except for an amount of exactly 32.
-/

namespace RapidPatch.Jit

open RapidPatch.Vm RapidPatch.Thumb RapidPatch.Support

/-! ### The frame -/

def loadShift (d e : Loc) (s : Core) : Core := loadPair d 3 (loadWord e false (loReg 4) s)

section Frame

variable {d e : Loc} {s : Core}

theorem keeps_loadAmount (e : Loc) (s : Core) : Keeps [.pair 4] s (loadWord e false (loReg 4) s) :=
  keeps_pair (loadWord_mem e false (loReg 4) s) fun _ hlo _ _ _ => loadWord_other e false s hlo

theorem keeps_loadShift (d e : Loc) (s : Core) : Keeps [.pair 4, .pair 3] s (loadShift d e s) :=
  (keeps_loadAmount e s).trans (keeps_loadPair d 3 _)

theorem runs_loadShift (d e : Loc) (hfp : aligned (s.r 11)) :
    Runs ((armBpfGetReg32 e.row.lo tmpReg2.lo).1 ++ (armBpfGetReg64 d.row tmpReg1).1) s
      (loadShift d e s) := by
  have hbad : badReg (loReg 4) = false := by decide
  have hreg : ((loReg 4).toNat : ℤ) = tmpReg2.lo := rfl
  have hsrc := runs_getReg32 e false hbad s
  rw [hreg] at hsrc
  exact hsrc.append (runs_loadPair d 3 ((keeps_loadAmount e s).aligned hfp))

theorem loadShift_dst (hd : ¬d.IsTemp) (h : Bool) :
    (loadShift d e s).r (halfReg h (d.core 3)) = wordOf h (val s d) := by
  rw [loadShift, loadPair_word,
    (keeps_loadAmount e s).same d (by simpa using fun h => hd (Or.inr h))]

theorem core_four_ne {e : Loc} (he : ¬e.IsTemp) : e.core 4 ≠ 3 := by
  cases e with
  | pair q =>
      rintro rfl
      exact he (Or.inl rfl)
  | slot j => exact (by decide : (4 : Fin 5) ≠ 3)

theorem loadShift_src (he : ¬e.IsTemp) :
    (loadShift d e s).r (loReg (e.core 4)) = loWord (val s e) := by
  have hword : e.word false (loReg 4) = loReg (e.core 4) := by cases e <;> rfl
  obtain ⟨hlo, hhi⟩ := halfReg_apart false _ _ (core_four_ne he)
  simp only [halfReg, Bool.false_eq_true, if_false] at hlo hhi
  rw [loadShift, loadPair_other d _ hlo hhi, ← hword, loadWord_word]
  rfl

theorem runs_putWords (d : Loc) {r : Reg} (hr : badReg r = false) (s : Core) :
    ∃ t, Runs (armBpfPutReg32 d.row.lo (r.toNat : ℤ) ++ armBpfPutReg32 d.row.hi armIp) s t ∧
      val t d = s.r 12 ++ s.r r ∧ Keeps [d] s t := by
  obtain ⟨u, hu, hru, hmu⟩ := runs_putReg32 d false hr s
  obtain ⟨hlow, hku⟩ := keeps_putWord d false r hru hmu
  obtain ⟨t, ht, hrt, hmt⟩ := runs_putReg32 d true (show badReg 12 = false by decide) u
  obtain ⟨hhigh, hkt⟩ := keeps_putWord d true 12 hrt hmt
  have hip : u.r 12 = s.r 12 := by
    rw [hru]
    cases d with
    | pair p => simp [putWord, halfReg]
    | slot j => rfl
  refine ⟨t, hu.append ht, ?_, (hku.trans hkt).mono (by simp)⟩
  rw [hhigh, hlow, hip]
  simp [setWord]

end Frame

/-- A sequence between the loads and the stores: it leaves the low word in `r`
and the high word in `IP`. -/
theorem writes_shiftReg {d e : Loc} (hd : ¬d.IsTemp) (he : ¬e.IsTemp) {code : Code} {r : Reg}
    (hr : badReg r = false) {f : Word → Word → Word → Word × Word}
    (hcode : ∀ s, ∃ t, Runs code s t ∧ t.mem = s.mem ∧
      (t.r 12, t.r r) = f (s.r (hiReg (d.core 3))) (s.r (loReg (d.core 3)))
        (s.r (loReg (e.core 4))) ∧
      ∀ i, i ≠ 9 → i ≠ 12 → i ≠ 14 → i ≠ hiReg (d.core 3) → t.r i = s.r i)
    {s : Core} (hfp : aligned (s.r 11)) :
    ∃ t, Runs ((armBpfGetReg32 e.row.lo tmpReg2.lo).1 ++ (armBpfGetReg64 d.row tmpReg1).1 ++ code ++
        (armBpfPutReg32 d.row.lo (r.toNat : ℤ) ++ armBpfPutReg32 d.row.hi armIp)) s t ∧
      Writes d ((f (hiWord (val s d)) (loWord (val s d)) (loWord (val s e))).1 ++
        (f (hiWord (val s d)) (loWord (val s d)) (loWord (val s e))).2) s t := by
  obtain ⟨u, hu, hm, hval, hk⟩ := hcode (loadShift d e s)
  obtain ⟨t, ht, hput, hkt⟩ := runs_putWords d hr u
  have hhi := loadShift_dst (e := e) (s := s) hd true
  have hlo := loadShift_dst (e := e) (s := s) hd false
  simp only [halfReg, wordOf, if_true, Bool.false_eq_true, if_false] at hhi hlo
  rw [hhi, hlo, loadShift_src he, Prod.ext_iff] at hval
  have hku : Keeps [.pair 4, .pair (d.core 3)] (loadShift d e s) u :=
    keeps_pairs hm fun i _ h9 _ hhigh h12 h14 => hk i h9 h12 h14 hhigh
  refine ⟨t, ((runs_loadShift d e hfp).append hu).append ht,
    (((keeps_loadShift d e s).trans hku).trans hkt).writes ?_ ?_⟩
  · intro l' hl'
    refine isTemp_or_of_mem ?_
    simp only [List.cons_append, List.nil_append, List.mem_cons, List.not_mem_nil,
      or_false] at hl' ⊢
    tauto
  · rw [hput, ← hval.1, ← hval.2]

theorem Sets.update {code : Code} {rd : Reg} {f : Core → Word} (h : Sets code rd f) (s : Core) :
    ∃ t, Runs code s t ∧ t.mem = s.mem ∧ t.r = Function.update s.r rd (f s) := by
  obtain ⟨t, ht, hm, hval, hk⟩ := h s
  refine ⟨t, ht, hm, ?_⟩
  funext i
  by_cases hi : i = rd
  · rw [hi, hval, Function.update_self]
  · rw [hk i hi, Function.update_of_ne hi]

/-! ### Amounts -/

theorem amount_bytes {x : Word} (hx : x.toNat < 64) :
    x.toNat % 256 = x.toNat ∧
      ((x - 32).toNat % 256 = if 32 ≤ x.toNat then x.toNat - 32 else 224 + x.toNat) ∧
      ((32 - x).toNat % 256 = if x.toNat ≤ 32 then 32 - x.toNat else 288 - x.toNat) := by
  have h32 : (32 : Word).toNat = 32 := rfl
  refine ⟨Nat.mod_eq_of_lt (by omega), ?_, ?_⟩
  · rw [BitVec.toNat_sub, h32]
    split <;> omega
  · rw [BitVec.toNat_sub, h32]
    split <;> omega

/-! ### The left shift -/

/-- The instructions of `_emit_lsh64_reg` between the loads and the stores. -/
def lshRegCode (p q : Fin 5) : Code :=
  emit4 (0xf1a00000 ||| regField (lo q) 16 ||| regField armIp 8 ||| 32) ++
  emit4 (0xfa00f000 ||| regField (hi p) 16 ||| regField tmpReg2.hi 8 ||| regField (lo q) 0) ++
  emit4 (0xfa00f000 ||| regField (lo p) 16 ||| regField armIp 8 ||| regField armIp 0) ++
  emit4 (0xea400000 ||| regField tmpReg2.hi 16 ||| regField armIp 8 ||| regField armIp 0) ++
  emit4 (0xf1c00000 ||| regField (lo q) 16 ||| regField tmpReg2.hi 8 ||| 32) ++
  emit4 (0xfa00f000 ||| regField (lo p) 16 ||| regField tmpReg2.hi 8 ||| regField tmpReg2.hi 0) ++
  emit4 (0xea400000 ||| regField tmpReg2.hi 16 ||| regField armIp 8 ||| regField armIp 0) ++
  emit4 (0xfa00f000 ||| regField (lo p) 16 ||| regField tmpReg2.hi 8 ||| regField (lo q) 0)

/-- The high and the low word they compute from the words of the destination
and the amount. -/
def lshWords (h l n : Word) : Word × Word :=
  (l <<< ((32 - n).toNat % 256) ||| (h <<< (n.toNat % 256) ||| l <<< ((n - 32).toNat % 256)),
    l <<< (n.toNat % 256))

theorem decode_lshReg : ∀ p q : Fin 5,
    decode32 (0xf1a00000 ||| regField (lo q) 16 ||| regField armIp 8 ||| 32) =
        some (.data (.dpImm .sub false 12 (loReg q) 32)) ∧
      decode32 (0xfa00f000 ||| regField (hi p) 16 ||| regField tmpReg2.hi 8 |||
        regField (lo q) 0) = some (.data (.shiftReg false .lsl 9 (hiReg p) (loReg q))) ∧
      decode32 (0xfa00f000 ||| regField (lo p) 16 ||| regField armIp 8 ||| regField armIp 0) =
        some (.data (.shiftReg false .lsl 12 (loReg p) 12)) ∧
      decode32 (0xea400000 ||| regField tmpReg2.hi 16 ||| regField armIp 8 ||| regField armIp 0) =
        some (.data (.dp .orr false 12 9 12 .lsl 0)) ∧
      decode32 (0xf1c00000 ||| regField (lo q) 16 ||| regField tmpReg2.hi 8 ||| 32) =
        some (.data (.dpImm .rsb false 9 (loReg q) 32)) ∧
      decode32 (0xfa00f000 ||| regField (lo p) 16 ||| regField tmpReg2.hi 8 |||
        regField tmpReg2.hi 0) = some (.data (.shiftReg false .lsl 9 (loReg p) 9)) ∧
      decode32 (0xfa00f000 ||| regField (lo p) 16 ||| regField tmpReg2.hi 8 |||
        regField (lo q) 0) = some (.data (.shiftReg false .lsl 9 (loReg p) (loReg q))) := by
  decide

theorem scratch_ne : ∀ p : Fin 5, p < 4 → hiReg p ≠ 9 ∧ hiReg p ≠ 12 ∧ hiReg p ≠ 14 ∧
    (9 : Reg) ≠ hiReg p ∧ (12 : Reg) ≠ hiReg p ∧ (14 : Reg) ≠ hiReg p := by
  decide

theorem scratch_ne_lo : ∀ p : Fin 5, loReg p ≠ 9 ∧ loReg p ≠ 12 ∧ loReg p ≠ 14 ∧
    (9 : Reg) ≠ 12 ∧ (12 : Reg) ≠ 9 ∧ (14 : Reg) ≠ 12 ∧ (12 : Reg) ≠ 14 ∧ (14 : Reg) ≠ 9 ∧
      (9 : Reg) ≠ 14 := by
  decide

theorem runs_lshRegCode {p q : Fin 5} (hp : p < 4) (s : Core) :
    ∃ t, Runs (lshRegCode p q) s t ∧ t.mem = s.mem ∧
      (t.r 12, t.r 9) = lshWords (s.r (hiReg p)) (s.r (loReg p)) (s.r (loReg q)) ∧
      ∀ i, i ≠ 9 → i ≠ 12 → i ≠ 14 → i ≠ hiReg p → t.r i = s.r i := by
  obtain ⟨d₁, d₂, d₃, d₄, d₅, d₆, d₈⟩ := decode_lshReg p q
  obtain ⟨s₁, r₁, m₁, e₁⟩ := (sets_dpImm d₁).update s
  obtain ⟨s₂, r₂, m₂, e₂⟩ := (sets_shiftReg d₂).update s₁
  obtain ⟨s₃, r₃, m₃, e₃⟩ := (sets_shiftReg d₃).update s₂
  obtain ⟨s₄, r₄, m₄, e₄⟩ := (sets_dp d₄).update s₃
  obtain ⟨s₅, r₅, m₅, e₅⟩ := (sets_dpImm d₅).update s₄
  obtain ⟨s₆, r₆, m₆, e₆⟩ := (sets_shiftReg d₆).update s₅
  obtain ⟨s₇, r₇, m₇, e₇⟩ := (sets_dp d₄).update s₆
  obtain ⟨t, r₈, m₈, e₈⟩ := (sets_shiftReg d₈).update s₇
  simp only [dpResult, shiftC_lsl, BitVec.shiftLeft_zero, addWithCarry_diff,
    addWithCarry_rsb] at e₁ e₂ e₃ e₄ e₅ e₆ e₇ e₈
  have hreg := (scratch_ne p hp)
  have hlo := scratch_ne_lo p
  have hlq := scratch_ne_lo q
  refine ⟨t, ((((((r₁.append r₂).append r₃).append r₄).append r₅).append r₆).append r₇).append r₈,
    by rw [m₈, m₇, m₆, m₅, m₄, m₃, m₂, m₁], ?_, ?_⟩
  · simp only [e₈, e₇, e₆, e₅, e₄, e₃, e₂, e₁, Function.update_apply, hreg, hlo, hlq, if_true,
      if_false, lshWords]
  · intro i h9 h12 _ _
    simp only [e₈, e₇, e₆, e₅, e₄, e₃, e₂, e₁, Function.update_apply, h9, h12, if_false]

/-- Where the left shift is right: the bits that go up into the high word are
shifted the wrong way, and the high word covers the difference. -/
def LshRegRight (n : ℕ) (x : BitVec 64) : Prop :=
  32 ≤ n ∨
    (loWord x <<< (32 - n) ^^^ loWord x >>> (32 - n)) &&& ~~~(hiWord x <<< n) = 0

instance (n : ℕ) (x : BitVec 64) : Decidable (LshRegRight n x) := by
  unfold LshRegRight
  infer_instance

theorem shl_zero_of_le (x : Word) {k : ℕ} (h : 32 ≤ k) : x <<< k = 0#32 :=
  BitVec.shiftLeft_eq_zero h

theorem shr_zero_of_le (x : Word) {k : ℕ} (h : 32 ≤ k) : x >>> k = 0#32 :=
  BitVec.ushiftRight_eq_zero h

theorem lshWords_iff (x : BitVec 64) {n : Word} (hn : n.toNat < 64) :
    x <<< n.toNat = (lshWords (hiWord x) (loWord x) n).1 ++ (lshWords (hiWord x) (loWord x) n).2 ↔
      LshRegRight n.toNat x := by
  obtain ⟨h1, h2, h3⟩ := amount_bytes hn
  conv_lhs => rw [← pair_words x]
  simp only [lshWords, hiWord_pair, loWord_pair, h1, h2, h3, LshRegRight]
  by_cases hlt : n.toNat < 32
  · rw [pair_shl _ _ hlt.le, pair_eq_iff, if_pos hlt.le, if_neg (by omega),
      shl_zero_of_le _ (show 32 ≤ 224 + n.toNat by omega), BitVec.or_zero, BitVec.or_comm,
      or_right_cancel_iff]
    simp [hlt]
  · refine iff_of_true ?_ (Or.inl (Nat.not_lt.mp hlt))
    rw [pair_shl_wide _ _ (Nat.not_lt.mp hlt), if_pos (Nat.not_lt.mp hlt),
      shl_zero_of_le _ (Nat.not_lt.mp hlt), shl_zero_of_le _ (Nat.not_lt.mp hlt), BitVec.zero_or]
    by_cases h32 : n.toNat = 32
    · simp [h32]
    · rw [if_neg (by omega), shl_zero_of_le _ (show 32 ≤ 288 - n.toNat by omega), BitVec.zero_or]
      rfl

/-! ### The logical right shift -/

/-- The instructions of `emit_a32_rsh_r64` between the loads and the stores. -/
def rshRegCode (p q : Fin 5) : Code :=
  emit4 (thumb32RsbwImmT2 armIp (lo q) 32 flagS) ++
  emit4 (thumb32SubwImmT4 tmpReg2.hi (lo q) 32) ++
  emit4 (thumb32LsrwRegT2 armLr (lo p) (lo q) flagS) ++
  emit4 (thumb32LslwRegT2 (hi p) (hi p) armIp flagS) ++
  emit4 (thumb32OrrwRegT2 armLr armLr (hi p) 0 srtypeLsl flagS) ++
  emit4 (thumb32LsrwRegT2 (hi p) (hi p) tmpReg2.hi flagS) ++
  emit4 (thumb32OrrwRegT2 armLr armLr (hi p) 0 srtypeLsl flagS) ++
  emit4 (thumb32LsrwRegT2 armIp (hi p) (lo q) flagS)

/-- The high and the low word they compute: the high word has been shifted
twice when it is shifted into place. -/
def rshWords (h l n : Word) : Word × Word :=
  let up := h <<< ((32 - n).toNat % 256)
  let back := up >>> ((n - 32).toNat % 256)
  (back >>> (n.toNat % 256), l >>> (n.toNat % 256) ||| up ||| back)

theorem decode_rshReg : ∀ p q : Fin 5,
    decode32 (thumb32RsbwImmT2 armIp (lo q) 32 flagS) =
        some (.data (.dpImm .rsb true 12 (loReg q) 32)) ∧
      decode32 (thumb32SubwImmT4 tmpReg2.hi (lo q) 32) = some (.data (.subImm 9 (loReg q) 32)) ∧
      decode32 (thumb32LsrwRegT2 armLr (lo p) (lo q) flagS) =
        some (.data (.shiftReg true .lsr 14 (loReg p) (loReg q))) ∧
      decode32 (thumb32LslwRegT2 (hi p) (hi p) armIp flagS) =
        some (.data (.shiftReg true .lsl (hiReg p) (hiReg p) 12)) ∧
      decode32 (thumb32OrrwRegT2 armLr armLr (hi p) 0 srtypeLsl flagS) =
        some (.data (.dp .orr true 14 14 (hiReg p) .lsl 0)) ∧
      decode32 (thumb32LsrwRegT2 (hi p) (hi p) tmpReg2.hi flagS) =
        some (.data (.shiftReg true .lsr (hiReg p) (hiReg p) 9)) ∧
      decode32 (thumb32LsrwRegT2 armIp (hi p) (lo q) flagS) =
        some (.data (.shiftReg true .lsr 12 (hiReg p) (loReg q))) := by
  decide

theorem sets_subImm {x : BitVec 32} {rd rn : Reg} {imm : Word}
    (hd : decode32 x = some (.data (.subImm rd rn imm))) :
    Sets (emit4 x) rd fun s => s.r rn - imm :=
  sets_emit4 hd fun _ => ⟨_, rfl, rfl, rfl⟩

theorem runs_rshRegCode {p q : Fin 5} (hp : p < 4) (s : Core) :
    ∃ t, Runs (rshRegCode p q) s t ∧ t.mem = s.mem ∧
      (t.r 12, t.r 14) = rshWords (s.r (hiReg p)) (s.r (loReg p)) (s.r (loReg q)) ∧
      ∀ i, i ≠ 9 → i ≠ 12 → i ≠ 14 → i ≠ hiReg p → t.r i = s.r i := by
  obtain ⟨d₁, d₂, d₃, d₄, d₅, d₆, d₈⟩ := decode_rshReg p q
  obtain ⟨s₁, r₁, m₁, e₁⟩ := (sets_dpImm d₁).update s
  obtain ⟨s₂, r₂, m₂, e₂⟩ := (sets_subImm d₂).update s₁
  obtain ⟨s₃, r₃, m₃, e₃⟩ := (sets_shiftReg d₃).update s₂
  obtain ⟨s₄, r₄, m₄, e₄⟩ := (sets_shiftReg d₄).update s₃
  obtain ⟨s₅, r₅, m₅, e₅⟩ := (sets_dp d₅).update s₄
  obtain ⟨s₆, r₆, m₆, e₆⟩ := (sets_shiftReg d₆).update s₅
  obtain ⟨s₇, r₇, m₇, e₇⟩ := (sets_dp d₅).update s₆
  obtain ⟨t, r₈, m₈, e₈⟩ := (sets_shiftReg d₈).update s₇
  simp only [dpResult, shiftC_lsl, shiftC_lsr, BitVec.shiftLeft_zero,
    addWithCarry_rsb] at e₁ e₂ e₃ e₄ e₅ e₆ e₇ e₈
  have hreg := scratch_ne p hp
  have hlo := scratch_ne_lo p
  have hlq := scratch_ne_lo q
  have hqp := loReg_ne_hiReg q p
  refine ⟨t, ((((((r₁.append r₂).append r₃).append r₄).append r₅).append r₆).append r₇).append r₈,
    by rw [m₈, m₇, m₆, m₅, m₄, m₃, m₂, m₁], ?_, ?_⟩
  · simp only [e₈, e₇, e₆, e₅, e₄, e₃, e₂, e₁, Function.update_apply, hreg, hlo, hlq, hqp,
      if_true, if_false, rshWords]
  · intro i h9 h12 h14 hhi
    simp only [e₈, e₇, e₆, e₅, e₄, e₃, e₂, e₁, Function.update_apply, h9, h12, h14, hhi, if_false]

/-- Where the logical right shift is right: nothing is left of the high word,
or the amount is a word. -/
def RshRegRight (n : ℕ) (x : BitVec 64) : Prop :=
  n = 32 ∨ (n < 32 ∧ hiWord x >>> n = 0) ∨ (32 < n ∧ hiWord x >>> (n - 32) = 0)

instance (n : ℕ) (x : BitVec 64) : Decidable (RshRegRight n x) := by
  unfold RshRegRight
  infer_instance

theorem rshWords_iff (x : BitVec 64) {n : Word} (hn : n.toNat < 64) :
    x >>> n.toNat = (rshWords (hiWord x) (loWord x) n).1 ++ (rshWords (hiWord x) (loWord x) n).2 ↔
      RshRegRight n.toNat x := by
  obtain ⟨h1, h2, h3⟩ := amount_bytes hn
  conv_lhs => rw [← pair_words x]
  simp only [rshWords, hiWord_pair, loWord_pair, h1, h2, h3, RshRegRight]
  generalize n.toNat = k at hn
  rcases Nat.lt_trichotomy k 32 with hlt | rfl | hgt
  · have hshr : (hiWord x ++ loWord x : BitVec 64) >>> k =
        (hiWord x >>> k) ++ (loWord x >>> k ||| hiWord x <<< (32 - k)) := by
      rcases Nat.eq_zero_or_pos k with rfl | hpos
      · simp
      · exact pair_shr _ _ hpos hlt
    rw [hshr, pair_eq_iff, if_pos hlt.le, if_neg (by omega),
      shr_zero_of_le _ (show 32 ≤ 224 + k by omega), BitVec.or_zero, BitVec.zero_ushiftRight]
    simp [hlt, hlt.ne, Nat.not_lt.mpr hlt.le]
  · rw [pair_shr_wide _ _ (by decide), pair_eq_iff]
    simp [shr_zero_of_le]
  · rw [pair_shr_wide _ _ hgt.le, pair_eq_iff, if_neg (by omega), if_pos hgt.le,
      shl_zero_of_le _ (show 32 ≤ 288 - k by omega), shr_zero_of_le (loWord x) hgt.le]
    simp [hgt, hgt.ne', Nat.not_lt.mpr hgt.le]

/-! ### The arithmetic right shift -/

/-- The instructions of `emit_a32_arsh_r64` that set flags for one another:
the last `orr` is skipped where the low word is negative. -/
def arshIfCode (p : Fin 5) : Code :=
  emit4 (thumb32OrrwRegT2 armLr armLr (hi p) 0 srtypeLsl flagS) ++
  emit4 (thumb32AsrwRegT2 (hi p) (hi p) tmpReg2.hi flagNos) ++
  (emit2 (thumb16ItT1 condPl itMaskNone) ++
    emit4 (thumb32OrrwRegT2 armLr armLr (hi p) 0 srtypeLsl flagS))

/-- The instructions between the loads and the stores. -/
def arshRegCode (p q : Fin 5) : Code :=
  emit4 (thumb32RsbwImmT2 armIp (lo q) 32 flagS) ++
  emit4 (thumb32SubwImmT4 tmpReg2.hi (lo q) 32) ++
  emit4 (thumb32LsrwRegT2 armLr (lo p) (lo q) flagS) ++
  emit4 (thumb32LslwRegT2 (hi p) (hi p) tmpReg2.hi flagNos) ++
  arshIfCode p ++
  emit4 (thumb32AsrwRegT2 armIp (hi p) (lo q) flagS)

/-- The high and the low word they compute. The high word goes up by the same
difference that it comes down by. -/
def arshWords (h l n : Word) : Word × Word :=
  let up := h <<< ((n - 32).toNat % 256)
  let low := l >>> (n.toNat % 256) ||| up
  let back := up.sshiftRight ((n - 32).toNat % 256)
  (back.sshiftRight (n.toNat % 256), if low.msb then low else low ||| back)

theorem decode_arshReg : ∀ p q : Fin 5,
    decode32 (thumb32LslwRegT2 (hi p) (hi p) tmpReg2.hi flagNos) =
        some (.data (.shiftReg false .lsl (hiReg p) (hiReg p) 9)) ∧
      decode32 (thumb32AsrwRegT2 (hi p) (hi p) tmpReg2.hi flagNos) =
        some (.data (.shiftReg false .asr (hiReg p) (hiReg p) 9)) ∧
      decode32 (thumb32AsrwRegT2 armIp (hi p) (lo q) flagS) =
        some (.data (.shiftReg true .asr 12 (hiReg p) (loReg q))) := by
  decide

theorem decode_it_orr : ∀ p : Fin 5,
    decodeIt (thumb16ItT1 condPl itMaskNone)
        (thumb32OrrwRegT2 armLr armLr (hi p) 0 srtypeLsl flagS) =
      some (.data (.dpIf 5 .orr true 14 14 (hiReg p) .lsl 0)) := by
  decide

theorem orr_update (s : Core) (rd rm : Reg) :
    (s.dp .orr true rd rd rm .lsl 0).r = Function.update s.r rd (s.r rd ||| s.r rm) := by
  funext i
  simp [dpResult, Function.update_apply]

theorem runs_arshIfCode {p : Fin 5} (hp : p < 4) (s : Core) :
    ∃ t, Runs (arshIfCode p) s t ∧ t.mem = s.mem ∧
      t.r = Function.update (Function.update s.r (hiReg p)
          ((s.r (hiReg p)).sshiftRight ((s.r 9).toNat % 256))) 14
        (if (s.r 14 ||| s.r (hiReg p)).msb then s.r 14 ||| s.r (hiReg p)
          else s.r 14 ||| s.r (hiReg p) |||
            (s.r (hiReg p)).sshiftRight ((s.r 9).toNat % 256)) := by
  obtain ⟨-, -, h14, h9', -, h14'⟩ := scratch_ne p hp
  obtain ⟨-, -, -, -, hdorr, -, -⟩ := decode_rshReg p p
  have hdit := decode_it_orr p
  rw [← halfwords (thumb32OrrwRegT2 armLr armLr (hi p) 0 srtypeLsl flagS)] at hdit
  let u := s.dp .orr true 14 14 (hiReg p) .lsl 0
  let v := u.set (hiReg p) (shiftC .asr (u.r (hiReg p)) ((u.r 9).toNat % 256) u.c).1
  let t := if condHolds v 5 then v.dp .orr true 14 14 (hiReg p) .lsl 0 else v
  have hu : u.r = Function.update s.r 14 (s.r 14 ||| s.r (hiReg p)) := orr_update s 14 (hiReg p)
  have hv : v.r = Function.update u.r (hiReg p)
      ((s.r (hiReg p)).sshiftRight ((s.r 9).toNat % 256)) := by
    funext i
    simp only [v, set_r, shiftC_asr, hu, Function.update_apply, h14,
      show (9 : Reg) ≠ 14 by decide, if_false]
  -- the last `orr` is carried out if the first left the sign clear
  have hcond : condHolds v 5 = !(s.r 14 ||| s.r (hiReg p)).msb := by
    show (!u.n) = _
    simp [u, Core.dp, Core.setFlags, Core.setNZ, dpResult]
  refine ⟨t, ((runs_emit4 hdorr rfl).append (runs_emit4 (decode_arshReg p p).2.1 rfl)).append
    (Runs.it (by decide) hdit rfl), ?_, ?_⟩
  · simp only [t]
    split <;> simp [v, u]
  · simp only [t, hcond]
    cases hmsb : (s.r 14 ||| s.r (hiReg p)).msb with
    | true =>
        simp only [Bool.not_true, Bool.false_eq_true, if_false, if_true, hv, hu]
        exact Function.update_comm h14' _ _ _
    | false =>
        simp only [Bool.not_false, if_true, Bool.false_eq_true, if_false, orr_update, hv, hu]
        rw [Function.update_of_ne h14', Function.update_self, Function.update_self,
          Function.update_comm h14', Function.update_idem]

theorem runs_arshRegCode {p q : Fin 5} (hp : p < 4) (s : Core) :
    ∃ t, Runs (arshRegCode p q) s t ∧ t.mem = s.mem ∧
      (t.r 12, t.r 14) = arshWords (s.r (hiReg p)) (s.r (loReg p)) (s.r (loReg q)) ∧
      ∀ i, i ≠ 9 → i ≠ 12 → i ≠ 14 → i ≠ hiReg p → t.r i = s.r i := by
  obtain ⟨d₁, d₂, d₃, -, -, -, -⟩ := decode_rshReg p q
  obtain ⟨d₄, -, d₆⟩ := decode_arshReg p q
  obtain ⟨s₁, r₁, m₁, e₁⟩ := (sets_dpImm d₁).update s
  obtain ⟨s₂, r₂, m₂, e₂⟩ := (sets_subImm d₂).update s₁
  obtain ⟨s₃, r₃, m₃, e₃⟩ := (sets_shiftReg d₃).update s₂
  obtain ⟨s₄, r₄, m₄, e₄⟩ := (sets_shiftReg d₄).update s₃
  obtain ⟨s₅, r₅, m₅, e₅⟩ := runs_arshIfCode hp s₄
  obtain ⟨t, r₆, m₆, e₆⟩ := (sets_shiftReg d₆).update s₅
  simp only [dpResult, shiftC_lsl, shiftC_lsr, shiftC_asr, addWithCarry_rsb] at e₁ e₂ e₃ e₄ e₆
  have hreg := scratch_ne p hp
  have hlo := scratch_ne_lo p
  have hlq := scratch_ne_lo q
  have hqp := loReg_ne_hiReg q p
  refine ⟨t, ((((r₁.append r₂).append r₃).append r₄).append r₅).append r₆,
    by rw [m₆, m₅, m₄, m₃, m₂, m₁], ?_, ?_⟩
  · simp only [e₆, e₅, e₄, e₃, e₂, e₁, Function.update_apply, hreg, hlo, hlq, hqp, if_true,
      if_false, arshWords]
  · intro i h9 h12 h14 hhi
    simp only [e₆, e₅, e₄, e₃, e₂, e₁, Function.update_apply, h9, h12, h14, hhi, if_false]

/-- Where the arithmetic right shift is right: for an amount of a word, and for
a high word of which nothing is left on either side. -/
def ArshRegRight (n : ℕ) (x : BitVec 64) : Prop :=
  n = 32 ∨ (n < 32 ∧ hiWord x = 0) ∨
    (32 < n ∧ hiWord x <<< (n - 32) = 0 ∧ hiWord x >>> (n - 32) = 0)

instance (n : ℕ) (x : BitVec 64) : Decidable (ArshRegRight n x) := by
  unfold ArshRegRight
  infer_instance

/-- A shift by more than all places leaves the sign. -/
theorem sar_of_ge (x : Word) {k : ℕ} (h : 31 ≤ k) : x.sshiftRight k = x.sshiftRight 31 := by
  apply BitVec.eq_of_getLsbD_eq
  intro i hi
  have hmsb : x.getLsbD 31 = x.msb := by rw [BitVec.msb_eq_getLsbD_last]
  rw [getLsbD_sar x k hi, getLsbD_sar x 31 hi]
  by_cases h0 : k + i < 32
  · have hk : k = 31 ∧ i = 0 := by omega
    rw [hk.1, hk.2]
  · rw [if_neg h0]
    split
    · rw [show i = 0 by omega, hmsb]
    · rfl

/-- A word that comes down as what went up, without a sign, went up as zero:
each bit that is set would have one above it. -/
theorem up_eq_zero {h : Word} {m : ℕ} (hpos : 0 < m)
    (heq : ∀ j < 32, h.getLsbD (m + j) =
      ((h <<< m).getLsbD j || (h <<< m).getLsbD (m + j))) : h <<< m = 0 := by
  have hup : ∀ i, (h <<< m).getLsbD i = (decide (i < 32) && !decide (i < m) && h.getLsbD (i - m)) :=
    fun i => BitVec.getLsbD_shiftLeft ..
  have hclear : ∀ k i, 32 - i ≤ k → (h <<< m).getLsbD i = false := by
    intro k
    induction k with
    | zero => exact fun i hi => BitVec.getLsbD_of_ge _ _ (by omega)
    | succ k ih =>
        intro i hi
        by_contra hset
        rw [Bool.not_eq_false] at hset
        have hbit := hup i
        rw [hset] at hbit
        simp only [Bool.true_eq, Bool.and_eq_true, decide_eq_true_eq, Bool.not_eq_eq_eq_not,
          Bool.not_true, decide_eq_false_iff_not] at hbit
        obtain ⟨⟨hlt, hge⟩, -⟩ := hbit
        -- the bit is set in the word itself, and so is the one above it
        have habove : h.getLsbD (m + i) = true := by
          rw [heq i hlt, hset, Bool.true_or]
        have hlt' : m + i < 32 := by
          by_contra hge'
          rw [BitVec.getLsbD_of_ge h _ (by omega)] at habove
          cases habove
        have hself : h.getLsbD i = true := by
          have hdown := heq (i - m) (by omega)
          rw [show m + (i - m) = i by omega, hset, Bool.or_true] at hdown
          exact hdown
        have hnext := ih (m + i) (by omega)
        rw [hup, show m + i - m = i by omega, hself] at hnext
        simp [hlt', show ¬m + i < m by omega] at hnext
  exact BitVec.eq_of_getLsbD_eq fun i _ => (hclear 32 i (by omega)).trans (by simp)

/-- A negative word does not come down as what went up. -/
theorem sar_ne_up {h : Word} {m : ℕ} (hpos : 0 < m) (hm : m < 32) (hup : (h <<< m).msb = true)
    (hmsb : h.msb = true) : h.sshiftRight m ≠ h <<< m := by
  intro heq
  have hbit : ∀ j < 32, (if m + j < 32 then h.getLsbD (m + j) else true) =
      (!decide (j < m) && h.getLsbD (j - m)) := by
    intro j hj
    have hj' := congrArg (·.getLsbD j) heq
    simp only [getLsbD_sar h m hj, BitVec.getLsbD_shiftLeft, hj, decide_true, Bool.true_and,
      hmsb] at hj'
    exact hj'
  have hdown : ∀ k i, i ≤ k → m ≤ i → i < 32 → h.getLsbD i = true → h.getLsbD (i - m) = true →
      False := by
    intro k
    induction k with
    | zero => exact fun i hi hmi => absurd hmi (by omega)
    | succ k ih =>
        intro i hi hmi hlt hset hbelow
        have hj := hbit (i - m) (by omega)
        rw [if_pos (by omega), show m + (i - m) = i by omega, hset] at hj
        simp only [Bool.true_eq, Bool.and_eq_true, Bool.not_eq_eq_eq_not, Bool.not_true,
          decide_eq_false_iff_not] at hj
        exact ih (i - m) (by omega) (by omega) (by omega) hbelow hj.2
  have htop : h.getLsbD 31 = true := by rwa [BitVec.msb_eq_getLsbD_last] at hmsb
  have hbelow : h.getLsbD (31 - m) = true := by
    have h31 : (h <<< m).getLsbD 31 = true := by rwa [BitVec.msb_eq_getLsbD_last] at hup
    simp only [BitVec.getLsbD_shiftLeft, Bool.and_eq_true] at h31
    exact h31.2
  exact hdown 31 31 le_rfl (by omega) (by decide) htop hbelow

theorem arsh_wide_iff {h : Word} {m n : ℕ} (hpos : 0 < m) (hm : m < 32) (hn : 31 ≤ n) :
    (h.sshiftRight 31 = ((h <<< m).sshiftRight m).sshiftRight n ∧
      h.sshiftRight m =
        if (h <<< m).msb then h <<< m else h <<< m ||| (h <<< m).sshiftRight m) ↔
      h <<< m = 0 ∧ h >>> m = 0 := by
  have hsign : ∀ x : Word, (x.sshiftRight 31).getLsbD 0 = x.msb := by
    intro x
    rw [getLsbD_sar x 31 (by decide), if_pos (by decide), BitVec.msb_eq_getLsbD_last]
  constructor
  · rintro ⟨hhigh, hlow⟩
    have hmsb : h.msb = (h <<< m).msb := by
      rw [sar_of_ge _ hn] at hhigh
      rw [← hsign h, hhigh, hsign, BitVec.msb_sshiftRight]
    cases hup : (h <<< m).msb with
    | true =>
        rw [hup, if_pos rfl] at hlow
        exact absurd hlow (sar_ne_up hpos hm hup (hmsb.trans hup))
    | false =>
        rw [hup, if_neg (by decide), BitVec.sshiftRight_eq_of_msb_false hup,
          BitVec.sshiftRight_eq_of_msb_false (hmsb.trans hup)] at hlow
        have hzero : h <<< m = 0 := by
          refine up_eq_zero hpos fun j _ => ?_
          have hj := congrArg (·.getLsbD j) hlow
          simpa only [BitVec.getLsbD_ushiftRight, BitVec.getLsbD_or] using hj
        refine ⟨hzero, ?_⟩
        rw [hlow, hzero]
        simp
  · rintro ⟨hzero, hlow⟩
    have hmsb : h.msb = false := by
      have hj := congrArg (·.getLsbD (31 - m)) hlow
      simp only [BitVec.getLsbD_ushiftRight, show m + (31 - m) = 31 by omega] at hj
      rw [BitVec.msb_eq_getLsbD_last, hj]
      simp
    have h31 : h >>> 31 = 0 := by
      have hsplit : h >>> 31 = h >>> m >>> (31 - m) := by
        rw [← BitVec.shiftRight_add, show m + (31 - m) = 31 by omega]
      rw [hsplit, hlow]
      simp
    rw [BitVec.sshiftRight_eq_of_msb_false hmsb, BitVec.sshiftRight_eq_of_msb_false hmsb, hzero,
      hlow, h31]
    simp

theorem arshWords_iff (x : BitVec 64) {n : Word} (hn : n.toNat < 64) :
    x.sshiftRight n.toNat =
        (arshWords (hiWord x) (loWord x) n).1 ++ (arshWords (hiWord x) (loWord x) n).2 ↔
      ArshRegRight n.toNat x := by
  obtain ⟨h1, h2, -⟩ := amount_bytes hn
  conv_lhs => rw [← pair_words x]
  simp only [arshWords, hiWord_pair, loWord_pair, h1, h2, ArshRegRight]
  generalize n.toNat = k at hn
  rcases Nat.lt_trichotomy k 32 with hlt | rfl | hgt
  · have hsar : (hiWord x ++ loWord x : BitVec 64).sshiftRight k =
        ((hiWord x).sshiftRight k) ++ (loWord x >>> k ||| hiWord x <<< (32 - k)) := by
      rcases Nat.eq_zero_or_pos k with rfl | hpos
      · simp
      · exact pair_sar _ _ hpos hlt
    rw [hsar, pair_eq_iff, if_neg (by omega), shl_zero_of_le _ (show 32 ≤ 224 + k by omega)]
    simp only [BitVec.or_zero, BitVec.zero_sshiftRight, ite_self]
    constructor
    · rintro ⟨hhigh, hlow⟩
      refine Or.inr (Or.inl ⟨hlt, ?_⟩)
      apply BitVec.eq_of_getLsbD_eq
      intro i hi
      by_cases hik : i < k
      · -- a low bit of the high word shows at the top of the low word
        have hbit := congrArg (·.getLsbD (32 - k + i)) hlow
        simp only [BitVec.getLsbD_or, BitVec.getLsbD_ushiftRight, BitVec.getLsbD_shiftLeft,
          BitVec.getLsbD_of_ge (loWord x) (k + (32 - k + i)) (by omega),
          show 32 - k + i - (32 - k) = i by omega] at hbit
        simpa [show 32 - k + i < 32 by omega, show ¬32 - k + i < 32 - k by omega] using hbit
      · have hbit := congrArg (·.getLsbD (i - k)) hhigh
        simp only [getLsbD_sar (hiWord x) k (show i - k < 32 by omega),
          show k + (i - k) = i by omega, hi, if_true] at hbit
        simpa using hbit
    · rintro (h | ⟨-, h⟩ | ⟨h, -⟩)
      · omega
      · simp [h]
      · omega
  · rw [pair_sar_wide _ _ (by decide) (by decide), pair_eq_iff]
    simp [shr_zero_of_le, sar_of_ge (hiWord x) (show 31 ≤ 32 by decide)]
  · rw [pair_sar_wide _ _ hgt.le hn, pair_eq_iff, if_pos hgt.le,
      shr_zero_of_le (loWord x) hgt.le, BitVec.zero_or,
      arsh_wide_iff (show 0 < k - 32 by omega) (show k - 32 < 32 by omega) (by omega)]
    simp [hgt, hgt.ne', Nat.not_lt.mpr hgt.le]

/-! ### The instructions -/

/-- The frame of a shift by a register. -/
def shiftFrame (d e : Loc) (code : Code) (r : ℤ) : Code :=
  (armBpfGetReg32 e.row.lo tmpReg2.lo).1 ++ (armBpfGetReg64 d.row tmpReg1).1 ++ code ++
    (armBpfPutReg32 d.row.lo r ++ armBpfPutReg32 d.row.hi armIp)

theorem emitLsh64Reg_code (d e : Loc) :
    emitLsh64Reg d.row e.row =
      shiftFrame d e (lshRegCode (d.core 3) (e.core 4)) ((9 : Reg).toNat : ℤ) := by
  have hreg := (getReg32_reg e 4).2
  simp [emitLsh64Reg, tmpReg1_eq, tmpReg2_eq, getReg64_row, shiftFrame, lshRegCode, hreg]
  rfl

theorem emitA32RshR64_code (d e : Loc) :
    emitA32RshR64 d.row e.row =
      shiftFrame d e (rshRegCode (d.core 3) (e.core 4)) ((14 : Reg).toNat : ℤ) := by
  have hreg := (getReg32_reg e 4).2
  simp [emitA32RshR64, tmpReg1_eq, tmpReg2_eq, getReg64_row, shiftFrame, rshRegCode, hreg]
  rfl

theorem emitA32ArshR64_code (d e : Loc) :
    emitA32ArshR64 d.row e.row =
      shiftFrame d e (arshRegCode (d.core 3) (e.core 4)) ((14 : Reg).toNat : ℤ) := by
  have hreg := (getReg32_reg e 4).2
  simp [emitA32ArshR64, tmpReg1_eq, tmpReg2_eq, getReg64_row, shiftFrame, arshRegCode, arshIfCode,
    hreg]
  rfl

/-- Where the translation of a shift by a register is right. -/
def ShiftRegRight (i : Inst) (ρ : Regs) : Prop :=
  match i.op with
  | .alu64 .lsh .reg => LshRegRight (ρ i.src).toNat (ρ i.dst)
  | .alu64 .rsh .reg => RshRegRight (ρ i.src).toNat (ρ i.dst)
  | .alu64 .arsh .reg => ArshRegRight (ρ i.src).toNat (ρ i.dst)
  | _ => True

instance (i : Inst) (ρ : Regs) : Decidable (ShiftRegRight i ρ) := by
  unfold ShiftRegRight
  generalize i.op = o
  rcases o with _ | ⟨op, source⟩
  · infer_instance
  · rcases op <;> rcases source <;> infer_instance
  all_goals infer_instance

/-- The code of a shift, for given contents. -/
theorem achieves_shiftFrame_iff {ρ : Regs} {d e : BitVec 4} (hd : d < 10) (he : e < 10)
    {code : Code} {r : Reg} (hr : badReg r = false) {f : Word → Word → Word → Word × Word}
    (hcode : ∀ s, ∃ t, Runs code s t ∧ t.mem = s.mem ∧
      (t.r 12, t.r r) = f (s.r (hiReg ((locOf d).core 3))) (s.r (loReg ((locOf d).core 3)))
        (s.r (loReg ((locOf e).core 4))) ∧
      ∀ i, i ≠ 9 → i ≠ 12 → i ≠ 14 → i ≠ hiReg ((locOf d).core 3) → t.r i = s.r i)
    (v : BitVec 64) :
    Achieves (shiftFrame (locOf d) (locOf e) code (r.toNat : ℤ)) ρ (Function.update ρ d v) ↔
      v = (f (hiWord (ρ d)) (loWord (ρ d)) (loWord (ρ e))).1 ++
        (f (hiWord (ρ d)) (loWord (ρ d)) (loWord (ρ e))).2 := by
  apply achieves_update_iff hd
  intro s hs
  obtain ⟨t, ht, hw⟩ := writes_shiftReg (locOf_not_temp d) (locOf_not_temp e) hr hcode hs.aligned
  rw [hs.regs d hd, hs.regs e he] at hw
  exact ⟨t, ht, hw⟩

theorem refines_shiftReg_iff (c : Call) {i : Inst} {ρ : Regs} {op : AluOp}
    (hshift : op.isShift = true) (hop : i.op = .alu64 op .reg) (hdst : i.dst < 10)
    (hsrc : i.src < 10) (hn : (ρ i.src).toNat < 64) :
    Refines c i (buildAlu64 (locOf i.dst).row (locOf i.src).row i.imm op .reg).code ρ ↔
      ShiftRegRight i ρ := by
  have hdiv : op.isDivision = false := by cases op <;> first | rfl | cases hshift
  have hrange : i.ShiftInRange ρ := by
    rw [Inst.ShiftInRange, hop]
    exact fun _ => by rwa [Inst.shiftAmount, hop]
  have hamount : (loWord (ρ i.src)).toNat = (ρ i.src).toNat := by
    rw [toNat_loWord]
    omega
  have hlt : (loWord (ρ i.src)).toNat < 64 := by omega
  have hp := core_lt_four (locOf_not_temp i.dst)
  rw [refines_alu64_iff hop hdiv hdst (fun _ => hsrc) hrange, operand64_eq]
  simp only [ShiftRegRight, hop]
  cases op with
  | lsh =>
      rw [← shiftLeft_eq_isaAlu, ← hamount, ← lshWords_iff _ hlt]
      simp only [buildAlu64, built, emitLsh64Reg_code]
      exact achieves_shiftFrame_iff hdst hsrc rfl (runs_lshRegCode hp) _
  | rsh =>
      rw [← ushiftRight_eq_isaAlu, ← hamount, ← rshWords_iff _ hlt]
      simp only [buildAlu64, built, emitA32RshR64_code]
      exact achieves_shiftFrame_iff hdst hsrc rfl (runs_rshRegCode hp) _
  | arsh =>
      rw [← sshiftRight_eq_isaAlu, ← hamount, ← arshWords_iff _ hlt]
      simp only [buildAlu64, built, emitA32ArshR64_code]
      exact achieves_shiftFrame_iff hdst hsrc rfl (runs_arshRegCode hp) _
  | _ => cases hshift

/-- The translation of a 64-bit shift by a register is right exactly where
`ShiftRegRight` says. -/
theorem shiftReg_right_iff (p : Input) (pass : Pass) (idx pc : ℕ) (c : Call) (ρ : Regs)
    (op : AluOp) (hshift : op.isShift = true) (hop : (p.insts pc).op = .alu64 op .reg)
    (hdst : (p.insts pc).dst < 10) (hsrc : (p.insts pc).src < 10)
    (hn : (ρ (p.insts pc).src).toNat < 64) :
    Refines c (p.insts pc) (buildInst p pass idx pc).code ρ ↔ ShiftRegRight (p.insts pc) ρ := by
  simp only [buildInst, hop, bpf2a32_eq_row p.behind hdst, bpf2a32_eq_row p.behind hsrc]
  exact refines_shiftReg_iff c hshift hop hdst hsrc hn

/-- `RSH64_REG r0, r2`. -/
def rsh64R0R2 : Inst :=
  { opcode := (Opcode.alu64 .rsh .reg).byte, dst := 0, src := 2, offset := 0, imm := 0 }

theorem shiftReg_by_a_word :
    Refines (singleCall rsh64R0R2) rsh64R0R2 (buildInst (single rsh64R0R2) genPass 0 0).code
      fun r => if r = 0 then 0x123456789abcdef0 else 32 :=
  (shiftReg_right_iff (single rsh64R0R2) genPass 0 0 (singleCall rsh64R0R2)
    (fun r => if r = 0 then 0x123456789abcdef0 else 32) .rsh rfl
    (opcodeOf_byte (.alu64 .rsh .reg)) (by decide) (by decide) (by decide)).mpr (by decide)

theorem rsh64_by_four_wrong :
    ¬Refines (singleCall rsh64R0R2) rsh64R0R2 (buildInst (single rsh64R0R2) genPass 0 0).code
      fun r => if r = 0 then 0x123456789abcdef0 else 4 := by
  have hop : rsh64R0R2.op = .alu64 .rsh .reg := opcodeOf_byte (.alu64 .rsh .reg)
  exact (refines_shiftReg_iff (singleCall rsh64R0R2) rfl hop (by decide) (by decide)
    (by decide)).not.mpr (by decide)

end RapidPatch.Jit
