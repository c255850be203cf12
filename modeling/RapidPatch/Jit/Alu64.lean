import RapidPatch.Jit.Alu

/-!
The translation of `OR64` and `XOR64`.

Both halves go through `emit_alu32_reg`, and whether a half is translated
right depends on its two registers. An `OR64` with a source in a spilled
register or an immediate works; one with a source in core registers changes
the source instead of the destination (`writes_orr16`), which goes unnoticed
for few contents (`OrUnharmed`). An `XOR64` works where both halves take the
16-bit encoding, and brings the carry into its result everywhere else.
-/

namespace RapidPatch.Jit

open RapidPatch.Vm RapidPatch.Thumb RapidPatch.Support

/-! ### The frame of `emit_alu64_reg` -/

theorem emitAlu64Reg_code (op : AluOp) (d e : Loc) :
    emitAlu64Reg true d.row e.row op =
      (armBpfGetReg64 d.row tmpReg1).1 ++ ((armBpfGetReg64 e.row tmpReg2).1 ++
        (pairOp op (d.core 3) (e.core 4) ++ armBpfPutReg64 d.row (Loc.pair (d.core 3)).row)) := by
  have hlo := emitAlu32Reg_half false (d.core 3) (e.core 4) true false op
  have hhi := emitAlu32Reg_half true (d.core 3) (e.core 4) true true op
  simp only [half, if_true, Bool.false_eq_true, if_false] at hlo hhi
  simp [emitAlu64Reg, tmpReg1_eq, tmpReg2_eq, getReg64_row, hlo, hhi, pairOp]

def loadOperands (d e : Loc) (s : Core) : Core := loadPair e 4 (loadPair d 3 s)

section Operands

variable {d e : Loc} {s : Core}

theorem keeps_loadPair (l : Loc) (tmp : Fin 5) (s : Core) :
    Keeps [.pair tmp] s (loadPair l tmp s) :=
  keeps_pair (loadPair_mem l tmp s) fun _ hlo hhi _ _ => loadPair_other l s hlo hhi

theorem keeps_loadOperands (d e : Loc) (s : Core) :
    Keeps [.pair 3, .pair 4] s (loadOperands d e s) :=
  (keeps_loadPair d 3 s).trans (keeps_loadPair e 4 _)

theorem runs_loadOperands (hfp : aligned (s.r 11)) :
    Runs ((armBpfGetReg64 d.row tmpReg1).1 ++ (armBpfGetReg64 e.row tmpReg2).1) s
      (loadOperands d e s) :=
  (runs_loadPair d 3 hfp).append (runs_loadPair e 4 ((keeps_loadPair d 3 s).aligned hfp))

theorem loadOperands_dst (hd : ¬d.IsTemp) (h : Bool) :
    (loadOperands d e s).r (halfReg h (d.core 3)) = wordOf h (val s d) := by
  obtain ⟨hlo, hhi⟩ := halfReg_apart h _ _ (core_ne_four hd)
  rw [loadOperands, loadPair_other e _ hlo hhi, loadPair_word]

theorem loadOperands_src (he : e ≠ .pair 3) (h : Bool) :
    (loadOperands d e s).r (halfReg h (e.core 4)) = wordOf h (val s e) := by
  rw [loadOperands, loadPair_word, (keeps_loadPair d 3 s).same e (by simpa using he)]

@[simp] theorem loadOperands_c : (loadOperands d e s).c = s.c := by
  simp [loadOperands]

end Operands

theorem computes_of_sets {op : AluOp} {p q : Fin 5} {f : Word → Word → Word}
    {F : BitVec 64 → BitVec 64 → BitVec 64}
    (hlo : Sets (emitAluOp (lo p) (lo q) true false op) (loReg p)
      (fun s => f (s.r (loReg p)) (s.r (loReg q))))
    (hhi : Sets (emitAluOp (hi p) (hi q) true true op) (hiReg p)
      (fun s => f (s.r (hiReg p)) (s.r (hiReg q))))
    (hF : ∀ a b c d : Word, F (a ++ b) (c ++ d) = f a c ++ f b d) :
    Computes (pairOp op p q) p q F := by
  intro s
  obtain ⟨u, hu, hmu, hvu, hku⟩ := hlo s
  obtain ⟨t, ht, hmt, hvt, hkt⟩ := hhi u
  beta_reduce at hvu hvt
  refine ⟨t, hu.append ht, ?_, ?_⟩
  · simp only [val, hF]
    rw [hvt, hku _ (hiReg_ne_loReg p p), hku _ (hiReg_ne_loReg q p),
      hkt _ (loReg_ne_hiReg p p), hvu]
  · refine keeps_pair (hmt.trans hmu) ?_
    intro i h1 h2 _ _
    rw [hkt i h2, hku i h1]

/-! ### `OR64` -/

theorem computes_or (p : Fin 5) : Computes (pairOp .or p 4) p 4 (· ||| ·) := by
  refine computes_of_sets (sets_orr32 false p) (sets_orr32 true p) ?_
  intro a b c d
  exact BitVec.or_append.symm ▸ rfl

theorem core_lt_four {d : Loc} (hd : ¬d.IsTemp) : d.core 3 < 4 := by
  have hne := core_ne_four hd
  revert hne
  generalize d.core 3 = p
  revert p
  decide

/-- Code that changes the pair of the source, in the frame: the destination
is stored as it was loaded. -/
theorem writes_source {d : Loc} {q : Fin 5} (hd : ¬d.IsTemp) (hq : q < 3) {s u v : Core}
    (hload : ∀ h, u.r (halfReg h (d.core 3)) = wordOf h (val s d))
    (hku : Keeps [.pair 3, .pair 4] s u) (hmem : v.mem = u.mem)
    (hreg : ∀ i, i ≠ loReg q → i ≠ hiReg q → v.r i = u.r i) (hfp : aligned (s.r 11)) :
    ∃ t, Runs (armBpfPutReg64 d.row (Loc.pair (d.core 3)).row) v t ∧
      Writes (.pair q) (val v (.pair q)) s t := by
  have hq3 : (3 : Fin 5) ≠ q := by
    rintro rfl
    exact absurd hq (by decide)
  have hk : Keeps ([.pair 3, .pair 4] ++ [.pair q]) s v :=
    hku.trans (keeps_pair hmem fun i hlo hhi _ _ => hreg i hlo hhi)
  obtain ⟨t, ht, hput, hkt⟩ := runs_putReg64 d 3 (hk.aligned hfp)
  have hdst : d ≠ .pair q → val t d = val s d := by
    intro hne
    have hcore : d.core 3 ≠ q := by
      cases d with
      | pair p =>
          rintro rfl
          exact hne rfl
      | slot j => exact hq3
    have hword : ∀ h : Bool, v.r (halfReg h (d.core 3)) = wordOf h (val s d) := by
      intro h
      obtain ⟨h1, h2⟩ := halfReg_apart h _ _ hcore
      rw [hreg _ h1 h2, hload]
    have hlo := hword false
    have hhi := hword true
    simp only [halfReg, if_true, Bool.false_eq_true, if_false] at hlo hhi
    rw [hput, val, hlo, hhi]
    exact pair_words _
  refine ⟨t, ht, hkt.fp.trans hk.fp, ?_, ?_, ?_⟩
  · cases d with
    | pair p =>
        by_cases hpq : p = q
        · rw [← hpq]
          exact hput
        · exact hkt.same _ (by simpa using Ne.symm hpq)
    | slot j => exact hkt.same _ (by simp)
  · intro l' htemp hne
    by_cases hl : l' = d
    · rw [hl]
      exact hdst (by rwa [← hl])
    · rw [hkt.same l' (by simpa using hl), hk.same l' ?_]
      simp only [List.cons_append, List.nil_append, List.mem_cons, List.not_mem_nil, or_false,
        not_or]
      exact ⟨fun h3 => htemp (Or.inl h3), fun h4 => htemp (Or.inr h4), hne⟩
  · exact fun a ha => (hkt.mem a (by rwa [hk.fp])).trans (hk.mem a ha)

/-- A source in core registers: it is the source that is written. The high
word is stated for a low word that comes out as it was. -/
theorem writes_orr16 {d : Loc} {q : Fin 5} (hd : ¬d.IsTemp) (hq : q < 3) {s : Core}
    (hfp : aligned (s.r 11)) :
    ∃ t x y, Runs (emitAlu64Reg true d.row (Loc.pair q).row .or) s t ∧
      Writes (.pair q) (y ++ x) s t ∧
      x = orrMixed (d.core 3) (s.r (loReg q)) ((loadPair d 3 s).r (orrOther false (d.core 3))) ∧
      (x = s.r (loReg q) → y =
        orrMixed (d.core 3) (s.r (hiReg q)) ((loadPair d 3 s).r (orrOther true (d.core 3)))) := by
  have hcore : ∀ q : Fin 5, q < 3 → q ≠ 3 ∧ q < 4 := by decide
  obtain ⟨hq3, hq4⟩ := hcore q hq
  have hp := core_lt_four hd
  have hword : ∀ h : Bool, (loadPair d 3 s).r (halfReg h q) = s.r (halfReg h q) := by
    intro h
    obtain ⟨h1, h2⟩ := halfReg_apart h q 3 hq3
    exact loadPair_other d s h1 h2
  obtain ⟨u, hu, hmu, hvu, hku⟩ := sets_orr16 false hp hq4 (loadPair d 3 s)
  obtain ⟨v, hv, hmv, hvv, hkv⟩ := sets_orr16 true hp hq4 u
  have hlow := hword false
  have hhigh := hword true
  simp only [halfReg, if_true, Bool.false_eq_true, if_false] at hvu hku hvv hkv hlow hhigh
  obtain ⟨t, ht, hw⟩ := writes_source hd hq (fun h => loadPair_word d 3 h s)
    ((keeps_loadPair d 3 s).trans (Keeps.refl [.pair 4] _)) (hmv.trans hmu)
    (fun i h1 h2 => by rw [hkv i h2, hku i h1]) hfp
  refine ⟨t, v.r (loReg q), v.r (hiReg q), ?_, hw, ?_, ?_⟩
  · rw [emitAlu64Reg_code]
    exact (runs_loadPair d 3 hfp).append ((hu.append hv).append ht)
  · rw [hkv _ (loReg_ne_hiReg q q), hvu, hlow]
  · intro hsame
    rw [hkv _ (loReg_ne_hiReg q q)] at hsame
    have hu' : ∀ i, u.r i = (loadPair d 3 s).r i := by
      intro i
      by_cases hi : i = loReg q
      · rw [hi, hsame]
        exact hlow.symm
      · exact hku i hi
    rw [hvv, hu', hu', hhigh]

def InPair (r : BitVec 4) : Prop := r = 0 ∨ r = 1 ∨ r = 6

instance (r : BitVec 4) : Decidable (InPair r) := by
  unfold InPair
  infer_instance

theorem locOf_cases : ∀ r : BitVec 4, r < 10 →
    (InPair r ∧ ∃ p : Fin 5, p < 3 ∧ locOf r = .pair p) ∨
      (¬InPair r ∧ ∃ j : Fin 7, locOf r = .slot j) := by
  decide

/-- The 16-bit `ORR` leaves the source `x` as it was: the word it combines
each half with does not show. For a destination of r1 the high half meets a
temporary register, which may hold anything. -/
def OrUnharmed (d : BitVec 4) (x : BitVec 64) (ρ : Regs) : Prop :=
  match locOf d with
  | .pair 0 => loWord x ||| loWord (ρ 0) = loWord x ∧ hiWord x ||| loWord (ρ 1) = hiWord x
  | .pair 1 => loWord x ||| loWord (ρ 6) = loWord x ∧ hiWord x = 0xffffffff
  | .pair _ => loWord x * loWord (ρ 0) = loWord x ∧ hiWord x * loWord (ρ 1) = hiWord x
  | .slot _ => loWord x * loWord (ρ 6) = loWord x ∧ hiWord x * loWord (ρ d) = hiWord x

instance (d : BitVec 4) (x : BitVec 64) (ρ : Regs) : Decidable (OrUnharmed d x ρ) := by
  unfold OrUnharmed
  split <;> infer_instance

theorem HoldsRegs.word {ρ : Regs} {s : Core} (h : HoldsRegs ρ s) {r : BitVec 4} (hr : r < 10)
    {p : Fin 5} (hp : locOf r = .pair p) (b : Bool) : s.r (halfReg b p) = wordOf b (ρ r) := by
  rw [← h.regs r hr, hp, wordOf_val_pair]

/-- What the two 16-bit `ORR` make of the source, with `r6` in the temporary
register. -/
def orrLow (d : BitVec 4) (x : BitVec 64) (ρ : Regs) : Word :=
  match locOf d with
  | .pair 0 => loWord x ||| loWord (ρ 0)
  | .pair 1 => loWord x ||| loWord (ρ 6)
  | .pair _ => loWord x * loWord (ρ 0)
  | .slot _ => loWord x * loWord (ρ 6)

def orrHigh (d : BitVec 4) (x : BitVec 64) (ρ : Regs) (r6 : Word) : Word :=
  match locOf d with
  | .pair 0 => hiWord x ||| loWord (ρ 1)
  | .pair 1 => hiWord x ||| r6
  | .pair _ => hiWord x * loWord (ρ 1)
  | .slot _ => hiWord x * loWord (ρ d)

theorem or_allOnes_iff (x : Word) : (∀ y : Word, x ||| y = x) ↔ x = 0xffffffff := by
  constructor
  · intro h
    rw [← h 0xffffffff]
    exact BitVec.or_allOnes
  · rintro rfl y
    exact BitVec.allOnes_or

theorem orUnharmed_iff (d : BitVec 4) (x : BitVec 64) (ρ : Regs) :
    OrUnharmed d x ρ ↔ orrLow d x ρ = loWord x ∧ ∀ r6, orrHigh d x ρ r6 = hiWord x := by
  unfold OrUnharmed orrLow orrHigh
  split
  · simp
  · rw [or_allOnes_iff]
  · simp
  · simp

theorem orrMixed_low {ρ : Regs} {s : Core} (hs : HoldsRegs ρ s) {d : BitVec 4} (hd : d < 10)
    (x : BitVec 64) :
    orrMixed ((locOf d).core 3) (loWord x)
        ((loadPair (locOf d) 3 s).r (orrOther false ((locOf d).core 3))) = orrLow d x ρ := by
  have h0 : s.r 0 = loWord (ρ 0) := hs.word (r := 0) (p := 0) (by decide) rfl false
  have h4 : s.r 4 = loWord (ρ 6) := hs.word (r := 6) (p := 2) (by decide) rfl false
  have hcases : ∀ d : BitVec 4, d < 10 → locOf d = .pair 0 ∨ locOf d = .pair 1 ∨
      locOf d = .pair 2 ∨ ∃ j : Fin 7, locOf d = .slot j := by decide
  rcases hcases d hd with hl | hl | hl | ⟨j, hl⟩ <;> simp only [hl, orrLow]
  · rw [← h0]
    rfl
  · rw [← h4]
    rfl
  · rw [← h0]
    rfl
  · have hother := @loadPair_other (.slot j) 3 4 s (by decide) (by decide)
    have hreg : orrOther false 3 = 4 := by decide
    rw [show (Loc.slot j).core 3 = 3 from rfl, hreg, hother, h4, orrMixed, if_neg (by decide)]

theorem orrMixed_high {ρ : Regs} {s : Core} (hs : HoldsRegs ρ s) {d : BitVec 4} (hd : d < 10)
    (x : BitVec 64) :
    orrMixed ((locOf d).core 3) (hiWord x)
        ((loadPair (locOf d) 3 s).r (orrOther true ((locOf d).core 3))) =
      orrHigh d x ρ (s.r 6) := by
  have h2 : s.r 2 = loWord (ρ 1) := hs.word (r := 1) (p := 1) (by decide) rfl false
  have hcases : ∀ d : BitVec 4, d < 10 → locOf d = .pair 0 ∨ locOf d = .pair 1 ∨
      locOf d = .pair 2 ∨ ∃ j : Fin 7, locOf d = .slot j := by decide
  have hval := hs.regs d hd
  rcases hcases d hd with hl | hl | hl | ⟨j, hl⟩ <;> simp only [hl, orrHigh] at hval ⊢
  · rw [← h2]
    rfl
  · rfl
  · rw [← h2]
    rfl
  · have hword := loadPair_word (.slot j) 3 false s
    have hreg : orrOther true 3 = halfReg false 3 := by decide
    rw [show (Loc.slot j).core 3 = 3 from rfl] at hword ⊢
    rw [hreg, hword, hval, orrMixed, if_neg (by decide)]
    rfl

/-- Writing one register where another one should be written goes unnoticed
if neither changes. -/
theorem update_agree_iff {ρ : Regs} {d e : BitVec 4} (hd : d < 10) (he : e < 10)
    {v w : BitVec 64} (hsame : e = d → (w = v ↔ w = ρ e ∧ v = ρ d)) :
    (∀ r < 10, Function.update ρ e w r = Function.update ρ d v r) ↔ w = ρ e ∧ v = ρ d := by
  constructor
  · intro h
    have hatd := h d hd
    have hate := h e he
    rw [Function.update_self] at hatd hate
    by_cases hed : e = d
    · subst hed
      rw [Function.update_self] at hatd
      exact (hsame rfl).mp hatd
    · rw [Function.update_of_ne (Ne.symm hed)] at hatd
      rw [Function.update_of_ne hed] at hate
      exact ⟨hate, hatd.symm⟩
  · rintro ⟨rfl, rfl⟩ r -
    rw [Function.update_eq_self, Function.update_eq_self]

/-- Code that writes `e` where it should write `d`. -/
theorem achieves_iff_of_writes {code : Code} {ρ : Regs} {d e : BitVec 4} (hd : d < 10)
    (he : e < 10) {v : BitVec 64} {P : Core → Prop}
    (hcode : ∀ s, HoldsRegs ρ s → ∃ t w, Runs code s t ∧ Writes (locOf e) w s t ∧
      (e = d → (w = v ↔ w = ρ e ∧ v = ρ d)) ∧ (w = ρ e ↔ P s)) :
    Achieves code ρ (Function.update ρ d v) ↔ v = ρ d ∧ ∀ s, HoldsRegs ρ s → P s := by
  constructor
  · intro h
    have hall : ∀ s, HoldsRegs ρ s → P s ∧ v = ρ d := by
      intro s hs
      obtain ⟨t, w, ht, hw, hsame, hP⟩ := hcode s hs
      rw [← hP]
      refine (update_agree_iff hd he hsame).mp ?_
      exact fun r hr => (hs.lands he hw).reg_eq (h.lands hs ht) hr
    obtain ⟨s, hs, -⟩ := exists_holdsRegs_carry ρ false
    exact ⟨(hall s hs).2, fun s hs => (hall s hs).1⟩
  · rintro ⟨hv, hP⟩ s hs
    obtain ⟨t, w, ht, hland, -, hw⟩ := hcode s hs
    have hl := hs.lands he hland
    rw [hw.mpr (hP s hs), Function.update_eq_self] at hl
    rw [hv, Function.update_eq_self]
    exact ⟨t, ht, hl⟩

/-- The temporary register may hold anything. -/
theorem exists_holdsRegs_r6 (ρ : Regs) (x : Word) : ∃ t, HoldsRegs ρ t ∧ t.r 6 = x := by
  have hfp : aligned (((blank false).set 6 x).r 11) := (by decide : aligned 0 = true)
  obtain ⟨t, ht, henv⟩ := exists_holdsRegs ρ hfp
  exact ⟨t, ht, (henv.high 6 (by decide)).trans (by simp)⟩

theorem achieves_or_pair_iff {ρ : Regs} {d e : BitVec 4} (hd : d < 10) (he : e < 10)
    (hpair : InPair e) :
    Achieves (emitAlu64Reg true (locOf d).row (locOf e).row .or) ρ
        (Function.update ρ d (ρ d ||| ρ e)) ↔
      ρ d ||| ρ e = ρ d ∧ OrUnharmed d (ρ e) ρ := by
  obtain ⟨q, hq, hloc⟩ : ∃ q : Fin 5, q < 3 ∧ locOf e = .pair q :=
    (locOf_cases e he).elim (fun h => h.2) fun h => absurd hpair h.1
  have hsame : ∀ w, e = d → (w = ρ d ||| ρ e ↔ w = ρ e ∧ ρ d ||| ρ e = ρ d) := by
    rintro w rfl
    simp
  have hcode : ∀ s, HoldsRegs ρ s → ∃ t w,
      Runs (emitAlu64Reg true (locOf d).row (locOf e).row .or) s t ∧ Writes (locOf e) w s t ∧
        (e = d → (w = ρ d ||| ρ e ↔ w = ρ e ∧ ρ d ||| ρ e = ρ d)) ∧
        (w = ρ e ↔
          orrLow d (ρ e) ρ = loWord (ρ e) ∧ orrHigh d (ρ e) ρ (s.r 6) = hiWord (ρ e)) := by
    intro s hs
    obtain ⟨t, x, y, hrun, hw, hx, hy⟩ := writes_orr16 (locOf_not_temp d) hq hs.aligned
    have hlo : s.r (loReg q) = loWord (ρ e) := hs.word he hloc false
    have hhi : s.r (hiReg q) = hiWord (ρ e) := hs.word he hloc true
    rw [hlo, orrMixed_low hs hd] at hx
    rw [hlo, hhi, orrMixed_high hs hd] at hy
    refine ⟨t, _, by rw [hloc]; exact hrun, by rw [hloc]; exact hw, hsame _, ?_⟩
    conv_lhs => rw [← pair_words (ρ e), pair_eq_iff, and_comm]
    rw [hx]
    exact and_congr_right fun h => by rw [hy (hx.trans h)]
  rw [achieves_iff_of_writes hd he hcode, orUnharmed_iff]
  refine and_congr_right fun _ => ?_
  constructor
  · intro h
    obtain ⟨s, hs, -⟩ := exists_holdsRegs_carry ρ false
    refine ⟨(h s hs).1, fun r6 => ?_⟩
    obtain ⟨s, hs, hr6⟩ := exists_holdsRegs_r6 ρ r6
    rw [← hr6]
    exact (h s hs).2
  · rintro ⟨hlow, hhigh⟩ s -
    exact ⟨hlow, hhigh _⟩

/-! ### `XOR64` -/

theorem computes_xor {p q : Fin 5} (h : usesLow false p q = true) :
    Computes (pairOp .xor p q) p q (· ^^^ ·) := by
  have hhigh : usesLow true p q = true := by
    revert p q
    decide
  have hlow := sets_eor false p q
  have hhi := sets_eor true p q
  simp only [h, hhigh, if_true] at hlow hhi
  refine computes_of_sets hlow hhi ?_
  intro a b c d
  exact BitVec.xor_append.symm ▸ rfl

theorem runs_xor {d e : Loc} (hd : ¬d.IsTemp) (he : e ≠ .pair 3) {s : Core}
    (hfp : aligned (s.r 11)) :
    ∃ t, Runs (emitAlu64Reg true d.row e.row .xor) s t ∧
      loWord (val t d) = if usesLow false (d.core 3) (e.core 4) then
        loWord (val s d) ^^^ loWord (val s e)
      else loWord (val s e) ^^^ rotateIn (loWord (val s d)) s.c := by
  obtain ⟨u, hu, hmu, hvu, hku⟩ := sets_eor false (d.core 3) (e.core 4) (loadOperands d e s)
  obtain ⟨v, hv, hmv, hvv, hkv⟩ := sets_eor true (d.core 3) (e.core 4) u
  have hk : Keeps [.pair (d.core 3)] (loadOperands d e s) v := by
    refine keeps_pair (hmv.trans hmu) ?_
    intro i hlo hhi _ _
    rw [hkv i hhi, hku i hlo]
  have hfpv : aligned (v.r 11) := hk.aligned ((keeps_loadOperands d e s).aligned hfp)
  obtain ⟨t, ht, hput, -⟩ := runs_putReg64 d 3 hfpv
  refine ⟨t, ?_, ?_⟩
  · rw [emitAlu64Reg_code, ← List.append_assoc]
    exact (runs_loadOperands hfp).append ((hu.append hv).append ht)
  · have hdst := loadOperands_dst (e := e) (s := s) hd false
    have hsrc := loadOperands_src (d := d) (s := s) he false
    simp only [wordOf, Bool.false_eq_true, if_false] at hdst hsrc
    simp only [hdst, hsrc, loadOperands_c] at hvu
    rw [hput, val, loWord_pair, hkv _ (loReg_ne_hiReg _ _)]
    exact hvu

theorem rotateIn_ne (x : Word) : rotateIn x true ≠ rotateIn x false := by
  intro h
  have hbit := congrArg (·.getLsbD 31) h
  simp [rotateIn] at hbit

/-- Code whose result shows the carry it started with is right for no
contents. -/
theorem not_achieves_of_carry {code : Code} {ρ ρ' : Regs} {d : BitVec 4} (hd : d < 10)
    {g : BitVec 64 → Word} {f : Bool → Word} (hf : f true ≠ f false)
    (hcode : ∀ s, HoldsRegs ρ s → ∃ t, Runs code s t ∧ g (val t (locOf d)) = f s.c) :
    ¬Achieves code ρ ρ' := by
  intro h
  have hval : ∀ c, g (ρ' d) = f c := by
    intro c
    obtain ⟨s, hs, rfl⟩ := exists_holdsRegs_carry ρ c
    obtain ⟨t, ht, hword⟩ := hcode s hs
    rw [← hword, (h.lands hs ht).regs d hd]
  exact hf ((hval true).symm.trans (hval false))

theorem xor_rotateIn_ne (x y : Word) : x ^^^ rotateIn y true ≠ x ^^^ rotateIn y false := by
  intro h
  exact rotateIn_ne y ((BitVec.xor_right_inj x).mp h)

theorem writes_movSeImm_tmp (imm : BitVec 32) (s : Core) :
    ∃ t, Runs (emitMovSeImm64 true tmpReg2 imm) s t ∧ t.c = s.c ∧
      Writes (.pair 4) (imm.signExtend 64) s t := by
  obtain ⟨t, ht, hval, hc, hk⟩ := runs_movImm_pair 4 (imm.signExtend 64) s
  refine ⟨t, ?_, hc, hk.writes (fun l' hl' => Or.inr (List.mem_singleton.mp hl')) hval⟩
  have hcode : emitMovSeImm64 true tmpReg2 imm = emitMovI64 tmpReg2 (imm.signExtend 64) := by
    rw [← signExtend_eq]
    rfl
  rw [hcode]
  simpa [emitMovI64, tmpReg2_eq, armBpfPutReg64] using ht

theorem not_achieves_xor_imm {ρ ρ' : Regs} {d : BitVec 4} (hd : d < 10) (imm : BitVec 32) :
    ¬Achieves (emitMovSeImm64 true tmpReg2 imm ++ emitAlu64Reg true (locOf d).row tmpReg2 .xor)
      ρ ρ' := by
  refine not_achieves_of_carry hd (g := loWord)
    (f := fun c => loWord (imm.signExtend 64) ^^^ rotateIn (loWord (ρ d)) c)
    (xor_rotateIn_ne _ _) ?_
  intro s hs
  have htemp := locOf_not_temp d
  obtain ⟨u, hu, hc, hw⟩ := writes_movSeImm_tmp imm s
  obtain ⟨t, ht, hlow⟩ := runs_xor (e := .pair 4) htemp (by decide) (s := u)
    (by rw [hw.fp]; exact hs.aligned)
  have hcore : usesLow false ((locOf d).core 3) 4 = false := by
    generalize (locOf d).core 3 = p
    revert p
    decide
  rw [show Loc.core (.pair 4) 4 = 4 from rfl, hcore, hw.written, hc,
    hw.other _ htemp fun h => htemp (Or.inr h), hs.regs d hd] at hlow
  exact ⟨t, hu.append ht, hlow⟩

/-- For which registers both halves of an `XOR64` have the 16-bit encoding. -/
theorem usesLow_iff : ∀ d e : BitVec 4, d < 10 → e < 10 →
    (usesLow false ((locOf d).core 3) ((locOf e).core 4) = true ↔ (e = 1 ∨ e = 6) ∧ d ≠ 0) := by
  decide

theorem achieves_xor_iff {ρ : Regs} {d e : BitVec 4} (hd : d < 10) (he : e < 10) :
    Achieves (emitAlu64Reg true (locOf d).row (locOf e).row .xor) ρ
        (Function.update ρ d (ρ d ^^^ ρ e)) ↔ (e = 1 ∨ e = 6) ∧ d ≠ 0 := by
  have htemp := locOf_not_temp d
  have he3 : locOf e ≠ .pair 3 := fun h => locOf_not_temp e (Or.inl h)
  rw [← usesLow_iff d e hd he]
  by_cases hlow : usesLow false ((locOf d).core 3) ((locOf e).core 4) = true
  · refine iff_of_true ?_ hlow
    intro s hs
    obtain ⟨t, ht, hw⟩ := writes_alu64Pair (computes_xor hlow) htemp he3 hs.aligned
    rw [hs.regs d hd, hs.regs e he] at hw
    exact ⟨t, ht, hs.lands hd hw⟩
  · refine iff_of_false (not_achieves_of_carry hd (g := loWord)
      (f := fun c => loWord (ρ e) ^^^ rotateIn (loWord (ρ d)) c) (xor_rotateIn_ne _ _) ?_) hlow
    intro s hs
    obtain ⟨t, ht, hval⟩ := runs_xor htemp he3 hs.aligned
    rw [if_neg hlow, hs.regs d hd, hs.regs e he] at hval
    exact ⟨t, ht, hval⟩

/-! ### The instructions -/

/-- Where the translation of an `OR64` or `XOR64` is right. -/
def OrXor64Right (i : Inst) (ρ : Regs) : Prop :=
  match i.op with
  | .alu64 .or .reg => InPair i.src → ρ i.dst ||| ρ i.src = ρ i.dst ∧ OrUnharmed i.dst (ρ i.src) ρ
  | .alu64 .xor .reg => (i.src = 1 ∨ i.src = 6) ∧ i.dst ≠ 0
  | .alu64 .xor .imm => False
  | _ => True

instance (i : Inst) (ρ : Regs) : Decidable (OrXor64Right i ρ) := by
  unfold OrXor64Right
  generalize i.op = o
  rcases o with _ | ⟨op, source⟩
  · infer_instance
  · rcases op <;> rcases source <;> infer_instance
  all_goals infer_instance

theorem achieves_or_slot {ρ : Regs} {d e : BitVec 4} (hd : d < 10) (he : e < 10)
    (hslot : ¬InPair e) :
    Achieves (emitAlu64Reg true (locOf d).row (locOf e).row .or) ρ
      (Function.update ρ d (ρ d ||| ρ e)) := by
  obtain ⟨j, hj⟩ : ∃ j, locOf e = .slot j :=
    (locOf_cases e he).elim (fun h => absurd h.1 hslot) fun h => h.2
  intro s hs
  obtain ⟨t, ht, hw⟩ := writes_alu64Pair (e := .slot j) (computes_or _) (locOf_not_temp d)
    (by simp) hs.aligned
  rw [← hj, hs.regs d hd, hs.regs e he] at hw
  exact ⟨t, by rw [hj]; exact ht, hs.lands hd hw⟩

theorem achieves_or_imm {ρ : Regs} {d : BitVec 4} (hd : d < 10) (imm : BitVec 32) :
    Achieves (emitMovSeImm64 true tmpReg2 imm ++ emitAlu64Reg true (locOf d).row tmpReg2 .or)
      ρ (Function.update ρ d (ρ d ||| imm.signExtend 64)) := by
  have htemp := locOf_not_temp d
  intro s hs
  obtain ⟨t, ht, hw⟩ := writes_imm htemp imm
    (fun s h => writes_alu64Pair (e := .pair 4) (computes_or _) htemp (by decide) h) hs.aligned
  rw [hs.regs d hd] at hw
  exact ⟨t, ht, hs.lands hd hw⟩

/-- The translation of an `OR64` or `XOR64` is right exactly where
`OrXor64Right` says. -/
theorem orXor64_right_iff (p : Input) (pass : Pass) (idx pc : ℕ) (ρ : Regs) (op : AluOp)
    (source : Src) (hbit : op = .or ∨ op = .xor) (hop : (p.insts pc).op = .alu64 op source)
    (hdst : (p.insts pc).dst < 10) (hsrc : source = .reg → (p.insts pc).src < 10) :
    Achieves (buildInst p pass idx pc).code ρ (Function.update ρ (p.insts pc).dst
        (isaAlu op (ρ (p.insts pc).dst)
          (operand64 source (ρ (p.insts pc).src) (p.insts pc).imm))) ↔
      OrXor64Right (p.insts pc) ρ := by
  simp only [buildInst, OrXor64Right, hop, bpf2a32_eq_row p.behind hdst, operand64_eq]
  cases source with
  | imm =>
      rcases hbit with rfl | rfl
      · rw [← or_eq_isaAlu]
        exact iff_of_true (achieves_or_imm hdst _) trivial
      · exact iff_of_false (not_achieves_xor_imm hdst _) id
  | reg =>
      rw [bpf2a32_eq_row p.behind (hsrc rfl)]
      rcases hbit with rfl | rfl
      · rw [← or_eq_isaAlu]
        by_cases hpair : InPair (p.insts pc).src
        · exact (achieves_or_pair_iff hdst (hsrc rfl) hpair).trans (by simp [hpair])
        · exact iff_of_true (achieves_or_slot hdst (hsrc rfl) hpair) fun h => absurd h hpair
      · rw [← xor_eq_isaAlu]
        exact achieves_xor_iff hdst (hsrc rfl)

/-- `XOR64_REG r6, r1`. -/
def xorR6R1 : Inst :=
  { opcode := (Opcode.alu64 .xor .reg).byte, dst := 6, src := 1, offset := 0, imm := 0 }

/-- `OR64_REG r0, r1`. -/
def orR0R1 : Inst :=
  { opcode := (Opcode.alu64 .or .reg).byte, dst := 0, src := 1, offset := 0, imm := 0 }

theorem orXor64_xor_r6_r1 :
    Achieves (buildInst (single xorR6R1) genPass 0 0).code (fun _ => 5)
      (Function.update (fun _ => 5) 6 (isaAlu .xor 5 5)) :=
  (orXor64_right_iff (single xorR6R1) genPass 0 0 (fun _ => 5) .xor .reg (Or.inr rfl)
    (opcodeOf_byte (.alu64 .xor .reg)) (by decide) (by decide)).mpr (by decide)

theorem or64_r0_r1_wrong :
    ¬Achieves (buildInst (single orR0R1) genPass 0 0).code (fun r => if r = 1 then 1 else 0)
      (Function.update (fun r => if r = 1 then 1 else 0) 0 (0 ||| 1)) := by
  have hcode : (buildInst (single orR0R1) genPass 0 0).code =
      emitAlu64Reg true (locOf 0).row (locOf 1).row .or := rfl
  rw [hcode]
  exact (achieves_or_pair_iff (ρ := fun r => if r = 1 then 1 else 0) (d := 0) (e := 1)
    (by decide) (by decide) (by decide)).not.mpr (by decide)

end RapidPatch.Jit
