import RapidPatch.Jit.LoadBase

/-!
The translation of loads.

A load of a doubleword sets both words. The narrow ones leave the high word
alone, and where the destination has a slot, what is put there as its high
word is whatever the temporary register holds: the address, or what was there
before.
-/

namespace RapidPatch.Jit

open RapidPatch.Vm RapidPatch.Thumb RapidPatch.Support

/-! ### Narrow loads -/

/-- The code leaves the `n` bytes at `a` in a register, and everything else as
it was. -/
def LoadsRight (code : Code) (ρ : Regs) (d : BitVec 4) (a : Word) (n : ℕ) : Prop :=
  ∀ s, HoldsRegs ρ s → ∃ t, Runs code s t ∧
    Arrives (Function.update ρ d (BitVec.ofNat 64 (loadLE s.mem a n))) s.mem s t

/-- A narrow load leaves zeros above what it loads. -/
def HighClear (r : BitVec 4) (far : Bool) (a : Word) (ρ : Regs) : Prop :=
  if InPair r then hiWord (ρ r) = 0 else far = true ∧ a = 0

theorem writes_narrow (d : Loc) {e : Loc} (he : ¬e.IsTemp) {off : Word} {sz : Size}
    {n : ℕ} {g : Core → Word}
    (hload : Sets (loadCode (d.core 3) (baseReg d e (!isLdstImm off sz))
        (if !isLdstImm off sz then 0 else off) sz) (loReg (d.core 3))
      fun s => BitVec.ofNat 32 (loadLE s.mem (g s) n)) {s : Core} (hfp : aligned (s.r 11)) :
    ∃ u t, Based d e (!isLdstImm off sz) off s u ∧ Runs (ldxCode d e off sz) s t ∧
      Writes d (u.r (hiReg (d.core 3)) ++ BitVec.ofNat 32 (loadLE s.mem (g u) n)) s t := by
  obtain ⟨u, hu, hbase⟩ := runs_base d he (!isLdstImm off sz) off s
  obtain ⟨v, hv, hmv, hval, hkv⟩ := hload u
  have hk := hbase.keeps.trans (keeps_pair hmv fun i hlo _ _ _ => hkv i hlo)
  obtain ⟨t, ht, hput, hkt⟩ := runs_putReg64 d 3 (hk.aligned hfp)
  refine ⟨u, t, hbase, (hu.append hv).append ht, (hk.trans hkt).writes ?_ ?_⟩
  · exact fun l' hl' => isTemp_or_of_mem hl'
  · rw [hput, val, hkv _ (hiReg_ne_loReg _ _), hval]
    simp only [hbase.mem]

section Narrow

variable {ρ : Regs} {d e : BitVec 4} {off : Word} {sz : Size}

/-- The word that ends up as the high word of the destination. -/
theorem Based.high_iff {far : Bool} {s u : Core} (h : Based (locOf d) (locOf e) far off s u)
    (hs : HoldsRegs ρ s) (hd : d < 10) (he : e < 10) (h7 : InPair d ∨ far = true ∨ s.r 7 ≠ 0) :
    u.r (hiReg ((locOf d).core 3)) = 0 ↔ HighClear d far (loWord (ρ e) + off) ρ := by
  unfold HighClear
  rcases locOf_cases d hd with ⟨hpair, p, hp, hloc⟩ | ⟨hslot, j, hloc⟩
  · have hne : ∀ p : Fin 5, p < 3 → hiReg p ≠ 7 ∧ hiReg p ≠ 8 := by decide
    have hhi : u.r (hiReg p) = hiWord (ρ d) :=
      (h.other _ (hne p hp).1 (hne p hp).2).trans (hs.word hd hloc true)
    rw [if_pos hpair, hloc, ← hhi]
    rfl
  · rw [if_neg hslot, hloc]
    show u.r 7 = 0 ↔ _
    cases far with
    | true =>
        have hbase := h.base
        rw [baseReg, Bool.true_or, if_pos rfl, if_pos rfl, hs.regs e he] at hbase
        rw [hbase]
        simp
    | false =>
        have hseven := h.seven rfl (by rw [hloc]; exact aliased_slot j (locOf_not_temp e))
        rw [hseven]
        refine iff_of_false ?_ fun hno => Bool.false_ne_true hno.1
        exact (h7.resolve_left hslot).resolve_left Bool.false_ne_true

theorem narrow_iff (hd : d < 10) (he : e < 10) {n : ℕ} (hn : n + 1 ≤ 4) {g : Core → Word} {b : Word}
    (hload : Sets (loadCode ((locOf d).core 3) (baseReg (locOf d) (locOf e) (!isLdstImm off sz))
        (if !isLdstImm off sz then 0 else off) sz) (loReg ((locOf d).core 3))
      fun s => BitVec.ofNat 32 (loadLE s.mem (g s) (n + 1)))
    (hg : ∀ s u, HoldsRegs ρ s → Based (locOf d) (locOf e) (!isLdstImm off sz) off s u → g u = b) :
    LoadsRight (ldxCode (locOf d) (locOf e) off sz) ρ d (loWord (ρ e) + off) (n + 1) ↔
      b = loWord (ρ e) + off ∧
        HighClear d (!isLdstImm off sz) (loWord (ρ e) + off) ρ := by
  have hcode : ∀ s, HoldsRegs ρ s → InPair d ∨ (!isLdstImm off sz) = true ∨ s.r 7 ≠ 0 →
      ∃ (t : Core) (x : Word), Runs (ldxCode (locOf d) (locOf e) off sz) s t ∧
        Writes (locOf d) (x ++ BitVec.ofNat 32 (loadLE s.mem b (n + 1))) s t ∧
        (x = 0 ↔ HighClear d (!isLdstImm off sz) (loWord (ρ e) + off) ρ) := by
    intro s hs h7
    obtain ⟨u, t, hbase, hrun, hw⟩ :=
      writes_narrow (locOf d) (locOf_not_temp e) hload hs.aligned
    rw [hg s u hs hbase] at hw
    exact ⟨t, _, hrun, hw, hbase.high_iff hs hd he h7⟩
  constructor
  · intro h
    obtain ⟨s, hs, -, h7, hmem⟩ := exists_core ρ
      (fun x => if x = loWord (ρ e) + off then 1 else 0) (l := [loWord (ρ e) + off, b]) (by simp)
    have h7' : s.r 7 ≠ 0 := by rw [h7]; decide
    obtain ⟨t, x, hrun, hw, hx⟩ := hcode s hs (Or.inr (Or.inr h7'))
    obtain ⟨u, hu, hland⟩ := h s hs
    have hval := hland.regs d hd
    rw [← hrun.unique hu, hw.written, Function.update_self, loadLE_narrow _ _ hn, pair_eq_iff]
      at hval
    refine ⟨?_, hx.mp hval.1⟩
    -- the byte that is marked tells the two addresses apart
    have hbyte := congrArg (BitVec.setWidth 8) hval.2
    rw [loadLE_byte _ _ _ (by decide), loadLE_byte _ _ _ (by decide), (hmem b (by simp)).2,
      (hmem _ (by simp)).2, if_pos rfl] at hbyte
    by_contra hne
    rw [if_neg hne] at hbyte
    cases hbyte
  · rintro ⟨rfl, hhigh⟩ s hs
    have h7 : InPair d ∨ (!isLdstImm off sz) = true ∨ s.r 7 ≠ 0 := by
      by_cases hpair : InPair d
      · exact Or.inl hpair
      · rw [HighClear, if_neg hpair] at hhigh
        exact Or.inr (Or.inl hhigh.1)
    obtain ⟨t, x, hrun, hw, hx⟩ := hcode s hs h7
    rw [hx.mpr hhigh, ← loadLE_narrow _ _ hn] at hw
    exact ⟨t, hrun, hs.lands hd hw⟩

theorem Based.addr {far : Bool} {s u : Core} (h : Based (locOf d) (locOf e) far off s u)
    (hs : HoldsRegs ρ s) (he : e < 10) :
    u.r (baseReg (locOf d) (locOf e) far) + (if far then 0 else off) = loWord (ρ e) + off := by
  rw [h.base, hs.regs e he]
  cases far with
  | true => exact BitVec.add_zero _
  | false => exact congrArg (· + off) (BitVec.add_zero _)

theorem direct_iff (hd : d < 10) (he : e < 10) {n : ℕ} (hn : n + 1 ≤ 4)
    (hload : Sets (loadCode ((locOf d).core 3) (baseReg (locOf d) (locOf e) (!isLdstImm off sz))
        (if !isLdstImm off sz then 0 else off) sz) (loReg ((locOf d).core 3))
      fun s => BitVec.ofNat 32 (loadLE s.mem
        (s.r (baseReg (locOf d) (locOf e) (!isLdstImm off sz)) +
          (if !isLdstImm off sz then 0 else off)) (n + 1))) :
    LoadsRight (ldxCode (locOf d) (locOf e) off sz) ρ d (loWord (ρ e) + off) (n + 1) ↔
      HighClear d (!isLdstImm off sz) (loWord (ρ e) + off) ρ := by
  rw [narrow_iff hd he hn hload fun s u hs h => h.addr hs he]
  exact and_iff_right rfl

theorem word_direct_iff (hd : d < 10) (he : e < 10)
    (hoff : within off 255 = true ∨ within off 4095 = false) :
    LoadsRight (ldxCode (locOf d) (locOf e) off .w) ρ d (loWord (ρ e) + off) 4 ↔
      HighClear d (!isLdstImm off .w) (loWord (ρ e) + off) ρ := by
  have hgood : ∀ p : Fin 5, badReg (loReg p) = false := by decide
  have h15 : ∀ r : Reg, r ≤ 8 → r ≠ 15 := by decide
  refine direct_iff hd he (n := 3) (by decide) (sets_ldr (hgood _) (h15 _ ?_) ?_)
  · exact (baseReg_le_eight (locOf d) (locOf_not_temp e) _).1
  · rcases hoff with h | h
    · split
      · decide
      · exact h
    · rw [isLdstImm, h]
      exact (by decide : within 0 255 = true)

theorem byte_direct_iff (hd : d < 10) (he : e < 10)
    (hoff : ldrbRight ((locOf e).word false 8) off ∨ within off 4095 = false) :
    LoadsRight (ldxCode (locOf d) (locOf e) off .b) ρ d (loWord (ρ e) + off) 1 ↔
      HighClear d (!isLdstImm off .b) (loWord (ρ e) + off) ρ := by
  have hlow : ∀ p : Fin 5, p < 4 → loReg p < 8 := by decide
  have hrt : loReg ((locOf d).core 3) < 8 := hlow _ (core_lt_four (locOf_not_temp d))
  have h15 : ∀ r : Reg, r ≤ 8 → r ≠ 15 := by decide
  have hle := (baseReg_le_eight (locOf d) (locOf_not_temp e) (!isLdstImm off .b)).1
  refine direct_iff hd he (n := 0) (by decide) (sets_ldrb hrt (h15 _ hle) ?_ ?_)
  · cases h : isLdstImm off .b with
    | true => exact h
    | false => exact (by decide : within 0 4095 = true)
  · cases h : isLdstImm off .b with
    | true =>
        have hnear : ¬within off 4095 = false := by
          rw [show within off 4095 = isLdstImm off .b from rfl, h]
          decide
        refine (hoff.resolve_right hnear).imp id fun hneg => ⟨hneg.1, hneg.2.imp_left fun h8 => ?_⟩
        have hno : aliased (locOf d) (locOf e) = false :=
          decide_eq_false fun heq => absurd hrt (BitVec.not_lt.mpr (heq ▸ h8))
        rwa [baseReg, hno]
    | false => exact Or.inl (by decide : (0 : ℤ) ≤ (0 : Word).toInt)

theorem half_iff (hd : d < 10) (he : e < 10) {b : Word}
    (hb : ∀ s u, HoldsRegs ρ s → Based (locOf d) (locOf e) (!isLdstImm off .h) off s u →
      ldrhAddr (baseReg (locOf d) (locOf e) (!isLdstImm off .h))
        (if !isLdstImm off .h then 0 else off) u = b) :
    LoadsRight (ldxCode (locOf d) (locOf e) off .h) ρ d (loWord (ρ e) + off) 2 ↔
      b = loWord (ρ e) + off ∧ HighClear d (!isLdstImm off .h) (loWord (ρ e) + off) ρ := by
  have hlow : ∀ p : Fin 5, p < 4 → loReg p < 8 := by decide
  have hrt : loReg ((locOf d).core 3) < 8 := hlow _ (core_lt_four (locOf_not_temp d))
  have hle := (baseReg_le_eight (locOf d) (locOf_not_temp e) (!isLdstImm off .h)).1
  refine narrow_iff hd he (n := 1) (by decide) (sets_ldrh hrt hle ?_) hb
  cases h : isLdstImm off .h with
  | true => exact h
  | false => exact (by decide : within 0 255 = true)

end Narrow

/-! ### Loads from another address -/

section Wrong

variable {ρ : Regs} {d e : BitVec 4} {off a b c : Word} {n : ℕ} {code : Code}

/-- A byte of the result tells where it was loaded from. -/
theorem not_loads_of_byte (f : BitVec 64 → BitVec 8)
    (hf : ∀ m : Mem, f (BitVec.ofNat 64 (loadLE m a n)) = m c) (hd : d < 10)
    (hcode : ∀ s, HoldsRegs ρ s → ∃ t, Runs code s t ∧ f (val t (locOf d)) = s.mem b)
    (hne : b ≠ c) : ¬LoadsRight code ρ d a n := by
  intro h
  obtain ⟨s, hs, -, -, hmem⟩ := exists_core ρ (fun x => if x = c then 1 else 0) (l := [b, c])
    (by simp)
  obtain ⟨t, hrun, hbyte⟩ := hcode s hs
  obtain ⟨u, hu, hland⟩ := h s hs
  rw [hrun.unique hu, hland.regs d hd, Function.update_self, hf, (hmem c (by simp)).2, if_pos rfl,
    (hmem b (by simp)).2, if_neg hne] at hbyte
  cases hbyte

theorem add_left_ne {x y z : Word} (h : y ≠ z) : x + y ≠ x + z :=
  fun heq => h ((BitVec.add_right_inj x).mp heq)

/-- An offset that spills into the mode is read as a shorter one. -/
theorem ldrOff_ne (h : ¬within off 255 = true) : ldrOff off ≠ off := by
  intro heq
  rw [← heq] at h
  exact h (within_accessOff _ _)

theorem loWord_ofNat (k : ℕ) : loWord (BitVec.ofNat 64 k) = BitVec.ofNat 32 k :=
  BitVec.setWidth_ofNat_of_le (by decide) k

/-- `LDR` with an offset that spills reads the low word from another address. -/
theorem not_loads_spilled (hd : d < 10) (he : e < 10) {sz : Size} {more : Code} {n : ℕ}
    (hnear : isLdstImm off sz = true) (h : within off 4095 = true)
    (hlong : ¬within off 255 = true)
    (hcode : loadCode ((locOf d).core 3) (baseReg (locOf d) (locOf e) false) off sz =
      emitLdrI (loReg ((locOf d).core 3)).toNat (baseReg (locOf d) (locOf e) false).toNat off ++
        more)
    (hmore : ∀ v, ∃ t, Runs more v t ∧ t.r 11 = v.r 11 ∧
      t.r (loReg ((locOf d).core 3)) = v.r (loReg ((locOf d).core 3))) :
    ¬LoadsRight (ldxCode (locOf d) (locOf e) off sz) ρ d (loWord (ρ e) + off) (n + 1) := by
  have hgood : ∀ p : Fin 5, badReg (loReg p) = false := by decide
  have h15 : ∀ r : Reg, r ≤ 8 → r ≠ 15 ∧ r ≠ 11 := by decide
  have h11 : ∀ p : Fin 5, loReg p ≠ 11 := by decide
  obtain ⟨hle, hne⟩ := baseReg_le_eight (locOf d) (locOf_not_temp e) false
  refine not_loads_of_byte (fun v => (loWord v).setWidth 8) (c := loWord (ρ e) + off)
    (b := loWord (ρ e) + ldrOff off) (fun m => ?_) hd (fun s hs => ?_)
    (add_left_ne (ldrOff_ne hlong))
  · rw [loWord_ofNat, loadLE_byte m _ n (by decide)]
  · obtain ⟨u, hu, hbase⟩ := runs_base (locOf d) (locOf_not_temp e) false off s
    obtain ⟨v, hv, hmv, hval, hkv⟩ := loads_ldr (hgood _) (h15 _ hle).1 h hne u
    obtain ⟨w, hw, hfp, hlow⟩ := hmore v
    have hfp' : w.r 11 = s.r 11 := by
      rw [hfp, hkv 11 (h11 _).symm (h15 _ hle).2.symm, hbase.other 11 (by decide) (by decide)]
    obtain ⟨t, ht, hput, -⟩ := runs_putReg64 (locOf d) 3 (s := w) (by rw [hfp']; exact hs.aligned)
    refine ⟨t, ?_, ?_⟩
    · rw [ldxCode, hnear]
      exact (hu.append (hcode ▸ hv.append hw)).append ht
    · have hreg := hbase.base
      rw [hs.regs e he] at hreg
      rw [hput, val, loWord_pair, hlow, hval, loadLE_byte _ _ 3 (by decide), hbase.mem]
      show s.mem (u.r _ + ldrOff off) = _
      rw [hreg]
      exact congrArg (fun x => s.mem (x + ldrOff off)) (BitVec.add_zero _)

theorem word_iff (hd : d < 10) (he : e < 10) :
    LoadsRight (ldxCode (locOf d) (locOf e) off .w) ρ d (loWord (ρ e) + off) 4 ↔
      HighClear d (!isLdstImm off .w) (loWord (ρ e) + off) ρ ∧
        (within off 255 = true ∨ within off 4095 = false) := by
  by_cases hoff : within off 255 = true ∨ within off 4095 = false
  · rw [word_direct_iff hd he hoff]
    exact (and_iff_left hoff).symm
  · obtain ⟨hlong, hnear⟩ := not_or.mp hoff
    have hnear' : within off 4095 = true := by simpa using hnear
    refine iff_of_false ?_ fun h => hoff h.2
    exact not_loads_spilled hd he hnear' hnear' hlong
      (List.append_nil _).symm fun v => ⟨v, Runs.nil v, rfl, rfl⟩

end Wrong

/-! ### Loads of a doubleword -/

section Dword

variable {ρ : Regs} {d e : BitVec 4} {off : Word}

theorem baseReg_ne_hi {d e : Loc} (hd : ¬d.IsTemp) (he : ¬e.IsTemp) :
    baseReg d e false ≠ hiReg (d.core 3) := by
  have h7 : ∀ p : Fin 5, p ≠ 3 → (7 : Reg) ≠ hiReg p := by decide
  unfold baseReg
  split
  · rename_i halias
    cases d with
    | slot j =>
        rw [Bool.false_or, aliased_slot j he] at halias
        cases halias
    | pair p =>
        refine h7 p ?_
        rintro rfl
        exact hd (Or.inl rfl)
  · rw [word_eq_core]
    exact loReg_ne_hiReg _ _

theorem writes_dword (d : Loc) {e : Loc} (he : ¬e.IsTemp) {far : Bool}
    (hfar : (!isLdstImm off .dw) = far) (hshort : within (if far then 0 else off) 255 = true)
    (hnext : nextWord (if far then 0 else off) = (if far then 0 else off) + 4)
    (hshort' : within ((if far then 0 else off) + 4) 255 = true) {s : Core}
    (hfp : aligned (s.r 11)) :
    ∃ t, Runs (ldxCode d e off .dw) s t ∧
      Writes d (BitVec.ofNat 64 (loadLE s.mem (loWord (val s e) + off) 8)) s t := by
  have hgood : ∀ p : Fin 5, badReg (loReg p) = false ∧ badReg (hiReg p) = false := by decide
  have h15 : ∀ r : Reg, r ≤ 8 → r ≠ 15 := by decide
  obtain ⟨hle, hne⟩ := baseReg_le_eight d he far
  obtain ⟨hlo, hhi⟩ := hgood (d.core 3)
  obtain ⟨u, hu, hbase⟩ := runs_base d he far off s
  obtain ⟨v, hv, hmv, hlow, hkv⟩ := sets_ldr hlo (h15 _ hle) hshort u
  obtain ⟨w, hw, hmw, hhigh, hkw⟩ := sets_ldr hhi (h15 _ hle) hshort' v
  have haddr : u.r (baseReg d e far) + (if far then 0 else off) = loWord (val s e) + off := by
    rw [hbase.base]
    cases far with
    | true => exact BitVec.add_zero _
    | false => exact congrArg (· + off) (BitVec.add_zero _)
  have hk := hbase.keeps.trans (keeps_pair (p := d.core 3) (hmw.trans hmv) fun i hi hi' _ _ =>
    (hkw i hi').trans (hkv i hi))
  obtain ⟨t, ht, hput, hkt⟩ := runs_putReg64 d 3 (hk.aligned hfp)
  refine ⟨t, ?_, (hk.trans hkt).writes (fun l' hl' => isTemp_or_of_mem hl') ?_⟩
  · rw [ldxCode, hfar, loadCode, hnext]
    exact (hu.append (hv.append hw)).append ht
  · rw [hput, val, hhigh, hkw _ (loReg_ne_hiReg _ _), hlow]
    simp only [hkv _ hne, ← BitVec.add_assoc, haddr, hmv, hbase.mem]
    exact (loadLE_dword s.mem (loWord (val s e) + off)).symm

/-- Where the offset of the second word spills, the high word is read from
another address. -/
theorem not_loads_high (hd : d < 10) (he : e < 10) (hnear : within off 4091 = true)
    (hshort : within off 255 = true) (hlong : ¬within (off + 4) 255 = true) :
    ¬LoadsRight (ldxCode (locOf d) (locOf e) off .dw) ρ d (loWord (ρ e) + off) 8 := by
  have hgood : ∀ p : Fin 5, badReg (loReg p) = false ∧ badReg (hiReg p) = false := by decide
  have h15 : ∀ r : Reg, r ≤ 8 → r ≠ 15 ∧ r ≠ 11 := by decide
  have h11 : ∀ p : Fin 5, loReg p ≠ 11 ∧ hiReg p ≠ 11 := by decide
  obtain ⟨hnext, hsum⟩ := nextWord_eq hnear
  have hnear' : within (off + 4) 4095 = true := by
    rw [within_iff] at hnear ⊢
    omega
  obtain ⟨hle, hne⟩ := baseReg_le_eight (locOf d) (locOf_not_temp e) false
  have hne' := baseReg_ne_hi (locOf_not_temp d) (locOf_not_temp e)
  obtain ⟨hlo, hhi⟩ := hgood ((locOf d).core 3)
  refine not_loads_of_byte (fun v => (hiWord v).setWidth 8) (c := loWord (ρ e) + (off + 4))
    (b := loWord (ρ e) + ldrOff (off + 4)) (fun m => ?_) hd (fun s hs => ?_)
    (add_left_ne (ldrOff_ne hlong))
  · rw [loadLE_dword, hiWord_pair, load32, loadLE_byte _ _ 3 (by decide), BitVec.add_assoc]
  · obtain ⟨u, hu, hbase⟩ := runs_base (locOf d) (locOf_not_temp e) false off s
    obtain ⟨v, hv, hmv, -, hkv⟩ := sets_ldr hlo (h15 _ hle).1 hshort u
    obtain ⟨w, hw, hmw, hval, hkw⟩ := loads_ldr hhi (h15 _ hle).1 hnear' hne' v
    have hfp : w.r 11 = s.r 11 := by
      rw [hkw 11 (h11 _).2.symm (h15 _ hle).2.symm, hkv 11 (h11 _).1.symm,
        hbase.other 11 (by decide) (by decide)]
    obtain ⟨t, ht, hput, -⟩ := runs_putReg64 (locOf d) 3 (s := w) (by rw [hfp]; exact hs.aligned)
    refine ⟨t, ?_, ?_⟩
    · rw [ldxCode, show isLdstImm off .dw = true from hnear, loadCode, Bool.not_true,
        if_neg Bool.false_ne_true, hnext]
      exact (hu.append (hv.append hw)).append ht
    · have hreg := hbase.base
      rw [hs.regs e he] at hreg
      rw [hput, val, hiWord_pair, hval, loadLE_byte _ _ 3 (by decide), hmv, hbase.mem]
      show s.mem (v.r _ + ldrOff (off + 4)) = _
      rw [hkv _ hne, hreg]
      exact congrArg (fun x => s.mem (x + ldrOff (off + 4))) (BitVec.add_zero _)

theorem dword_iff (hd : d < 10) (he : e < 10) :
    LoadsRight (ldxCode (locOf d) (locOf e) off .dw) ρ d (loWord (ρ e) + off) 8 ↔
      -255 ≤ off.toInt ∧ off.toInt ≤ 251 ∨ within off 4091 = false := by
  have hright : ∀ far : Bool, (!isLdstImm off .dw) = far →
      within (if far then 0 else off) 255 = true →
      nextWord (if far then 0 else off) = (if far then 0 else off) + 4 →
      within ((if far then 0 else off) + 4) 255 = true →
      LoadsRight (ldxCode (locOf d) (locOf e) off .dw) ρ d (loWord (ρ e) + off) 8 := by
    intro far hfar h h' h'' s hs
    obtain ⟨t, ht, hw⟩ := writes_dword (locOf d) (locOf_not_temp e) hfar h h' h'' hs.aligned
    rw [hs.regs e he] at hw
    exact ⟨t, ht, hs.lands hd hw⟩
  cases hfar : within off 4091 with
  | false =>
      refine iff_of_true (hright true ?_ (by decide : within 0 255 = true)
        (by decide : nextWord 0 = 0 + 4) (by decide : within (0 + 4) 255 = true)) (Or.inr rfl)
      rw [isLdstImm]
      simpa using hfar
  | true =>
      obtain ⟨hnext, hsum⟩ := nextWord_eq hfar
      have hnear : isLdstImm off .dw = true := hfar
      by_cases hshort : within off 255 = true
      · by_cases hshort' : within (off + 4) 255 = true
        · refine iff_of_true (hright false (by rw [hnear]; rfl) hshort hnext hshort') (Or.inl ?_)
          rw [within_iff] at hshort hshort'
          omega
        · refine iff_of_false (not_loads_high hd he hfar hshort hshort') ?_
          rw [within_iff] at hshort hshort'
          simp only [Bool.true_eq_false, or_false]
          omega
      · have hgood : ∀ p : Fin 5, badReg (hiReg p) = false := by decide
        have h15 : ∀ r : Reg, r ≤ 8 → r ≠ 15 ∧ r ≠ 11 := by decide
        have h11 : ∀ p : Fin 5, hiReg p ≠ 11 := by decide
        have hwide := within_iff.mp hfar
        obtain ⟨hle, hne⟩ := baseReg_le_eight (locOf d) (locOf_not_temp e) false
        refine iff_of_false (not_loads_spilled (n := 7) hd he hnear
          (within_iff.mpr (by omega)) hshort (by rw [loadCode]) fun v => ?_) ?_
        · obtain ⟨t, ht, -, -, hk⟩ := loads_ldr (hgood ((locOf d).core 3)) (h15 _ hle).1
            (show within (nextWord off) 4095 = true by rw [hnext, within_iff]; omega)
            (baseReg_ne_hi (locOf_not_temp d) (locOf_not_temp e)) v
          exact ⟨t, ht, hk 11 (h11 _).symm (h15 _ hle).2.symm,
            hk _ (loReg_ne_hiReg _ _) hne.symm⟩
        · rw [within_iff] at hshort
          simp only [Bool.true_eq_false, or_false]
          omega

end Dword

/-! ### Loads of a halfword -/

section Half

variable {ρ : Regs} {d e : BitVec 4} {off : Word}

/-- Where a halfword is loaded from the right address. -/
def HalfRight (e : BitVec 4) (off : Word) (ρ : Regs) : Prop :=
  if within off 31 then
    if InPair e then off = 0
    else loWord (ρ 0) + BitVec.ofNat 32 (2 * (off.setWidth 5 ||| 1).toNat) = loWord (ρ e) + off
  else off.toInt < -255 ∨ 0 ≤ off.toInt

instance : Decidable (HalfRight e off ρ) := by
  unfold HalfRight
  infer_instance

theorem scaled_iff (h : within off 31 = true) :
    BitVec.ofNat 32 (2 * (off.setWidth 5).toNat) = off ↔ off = 0 := by
  constructor
  · intro heq
    have hnat := congrArg BitVec.toNat heq
    have hcond := off.toInt_eq_toNat_cond
    rw [BitVec.toNat_ofNat, BitVec.toNat_setWidth] at hnat
    rw [within_iff] at h
    apply BitVec.eq_of_toNat_eq
    show off.toNat = 0
    split at hcond <;> omega
  · rintro rfl
    rfl

theorem and_byte_eq_iff (h : within off 255 = true) : off &&& 0xff = off ↔ 0 ≤ off.toInt := by
  have hand : (off &&& 0xff).toNat = off.toNat % 256 := by
    rw [BitVec.toNat_and]
    exact Nat.and_two_pow_sub_one_eq_mod _ 8
  have hcond := off.toInt_eq_toNat_cond
  rw [← BitVec.toNat_inj, hand]
  rw [within_iff] at h
  split at hcond <;> omega

theorem Based.near {s u : Core} (h : Based (locOf d) (locOf e) false off s u)
    (hs : HoldsRegs ρ s) (he : e < 10) :
    u.r (baseReg (locOf d) (locOf e) false) = loWord (ρ e) := by
  rw [h.base, hs.regs e he]
  exact BitVec.add_zero _

theorem halfword_iff (hd : d < 10) (he : e < 10) :
    LoadsRight (ldxCode (locOf d) (locOf e) off .h) ρ d (loWord (ρ e) + off) 2 ↔
      HighClear d (!isLdstImm off .h) (loWord (ρ e) + off) ρ ∧ HalfRight e off ρ := by
  rw [and_comm]
  cases hfar : isLdstImm off .h with
  | false =>
      have hfar' : ¬within off 255 = true := by
        rw [show within off 255 = isLdstImm off .h from rfl, hfar]
        decide
      have hright : HalfRight e off ρ := by
        rw [within_iff] at hfar'
        rw [HalfRight, if_neg (by rw [within_iff]; omega)]
        omega
      rw [half_iff hd he (b := loWord (ρ e) + off), hfar]
      · exact and_congr_left' (iff_of_true rfl hright)
      · intro s u hs hbase
        rw [hfar] at hbase ⊢
        have haddr := hbase.addr hs he
        rw [if_pos (by decide)] at haddr ⊢
        exact haddr
  | true =>
      have hnear : within off 255 = true := hfar
      by_cases hshort : within off 31 = true
      · rw [HalfRight, if_pos hshort]
        rcases locOf_cases e he with ⟨hpair, p, hp, hloc⟩ | ⟨hslot, j, hloc⟩
        · have hlow : ∀ p : Fin 5, p < 3 → loReg p < 8 := by decide
          rw [half_iff hd he
            (b := loWord (ρ e) + BitVec.ofNat 32 (2 * (off.setWidth 5).toNat)), hfar, if_pos hpair,
            BitVec.add_right_inj, scaled_iff hshort]
          intro s u hs hbase
          rw [hfar] at hbase ⊢
          have hreg : baseReg (locOf d) (locOf e) false < 8 := by
            unfold baseReg
            split
            · decide
            · rw [hloc]
              exact hlow p hp
          simp only [ldrhAddr, Bool.not_true, Bool.false_eq_true, if_false, hshort, if_true, hreg,
            hbase.near hs he]
        · rw [half_iff hd he
            (b := loWord (ρ 0) + BitVec.ofNat 32 (2 * (off.setWidth 5 ||| 1).toNat)), hfar,
            if_neg hslot]
          intro s u hs hbase
          rw [hfar] at hbase ⊢
          have h8 : ∀ p : Fin 5, p < 4 → (8 : Reg) ≠ loReg p := by decide
          have hreg : baseReg (locOf d) (locOf e) false = 8 := by
            have hno : aliased (locOf d) (locOf e) = false := by
              rw [hloc]
              exact decide_eq_false (h8 _ (core_lt_four (locOf_not_temp d))).symm
            rw [baseReg, hno, hloc]
            rfl
          have hzero : u.r 0 = loWord (ρ 0) := by
            rw [hbase.other 0 (by decide) (by decide)]
            exact hs.word (by decide) (rfl : locOf 0 = .pair 0) false
          simp only [ldrhAddr, Bool.not_true, Bool.false_eq_true, if_false, hshort, if_true, hreg,
            (by decide : ¬(8 : Reg) < 8), hzero]
      · rw [HalfRight, if_neg hshort, half_iff hd he (b := loWord (ρ e) + (off &&& 0xff)), hfar,
          BitVec.add_right_inj, and_byte_eq_iff hnear]
        · have hlow := (within_iff.mp hnear).1
          refine and_congr_left' ⟨Or.inr, fun h => h.resolve_left (by omega)⟩
        · intro s u hs hbase
          rw [hfar] at hbase ⊢
          simp only [ldrhAddr, Bool.not_true, Bool.false_eq_true, if_false, hshort,
            hbase.near hs he]

end Half

/-! ### Loads of a byte -/

/-- A load or store of `LR` at the frame pointer or above the frame, or no
instruction. -/
def strays : Option Instr → Bool
  | none => true
  | some (.data (.load _ _ rt rn _)) => rt = 14 && rn = 6
  | some (.data (.store n rt rn mode)) =>
      rt = 14 && rn = 6 && n ≤ 4 &&
        (mode = ⟨true, true, false, 0x94b⟩ || mode = ⟨false, false, true, 0x4b⟩)
  | _ => false

/-- A negative offset in the 16-bit `LDRB`, with the first halfword of the
store behind it. -/
theorem decode_lone : ∀ (k : Fin 31) (p : Fin 5), p < 3 →
    strays (decode32 (thumb16LdrbImmT1 6 (lo p) (BitVec.ofInt 32 (-(k + 1 : ℕ))) ++
      (0xe94b : BitVec 16))) = true := by
  decide

/-- The halfwords of the store into a slot, the second taken for an instruction
of its own. -/
theorem decode_putSlot : ∀ j : Fin 7,
    armBpfPutReg64 (Loc.slot j).row (Loc.pair 3).row =
        [0xe94b, 0x6700 ||| BitVec.ofNat 16 (depth j / 4)] ∧
      decode16 (0x6700 ||| BitVec.ofNat 16 (depth j / 4)) =
        some (.data (.store 4 (lowReg (BitVec.ofNat 3 (depth j / 4))) (if j < 3 then 0 else 1)
          ⟨true, true, false, 112⟩)) := by
  decide

/-- What strays does not reach the frame. -/
theorem exec_strays {o : Option Instr} (h : strays o = true) :
    (∀ d, o ≠ some (.data d)) ∨ ∃ d, o = some (.data d) ∧ ∀ s : Core, s.r 6 = s.r 11 →
      ∃ t, execData s d = some t ∧ (∀ i, i ≠ 6 → i ≠ 14 → t.r i = s.r i) ∧
        ∀ a, InFrame (s.r 11) a → t.mem a = s.mem a := by
  unfold strays at h
  split at h
  · exact Or.inl fun d hd => by cases hd
  · rename_i n signed rt rn mode
    simp only [Bool.and_eq_true, decide_eq_true_eq] at h
    obtain ⟨rfl, rfl⟩ := h
    refine Or.inr ⟨_, rfl, fun s _ => ⟨_, rfl, ?_, ?_⟩⟩
    · intro i h6 h14
      rw [set_r, if_neg h14, AddrMode.writeBack]
      split
      · rw [set_r, if_neg h6]
      · rfl
    · intro a _
      rw [set_mem, AddrMode.writeBack]
      split <;> rfl
  · rename_i n rt rn mode
    simp only [Bool.and_eq_true, Bool.or_eq_true, decide_eq_true_eq] at h
    obtain ⟨⟨⟨rfl, rfl⟩, hn⟩, hmode⟩ := h
    refine Or.inr ⟨_, rfl, fun s h6 => ⟨_, rfl, ?_, ?_⟩⟩
    · intro i hi6 _
      rw [AddrMode.writeBack]
      split
      · rw [set_r, if_neg hi6]
      · rfl
    · intro a ha
      have hmiss : Misses (s.r 11) (mode.address (s.r 6)) n := by
        intro k hk
        have hmode' : mode.address (s.r 6) = s.r 11 + BitVec.ofNat 32 0x94b ∨
            mode.address (s.r 6) = s.r 11 := by
          rw [← h6]
          exact hmode.imp (fun h => by rw [h]; rfl) (fun h => by rw [h]; rfl)
        rcases hmode' with h | h <;> rw [h, InFrame] <;> bv_omega
      have hstore := hmiss.storeLE s.mem (s.r 14).toNat ha
      rw [AddrMode.writeBack]
      split <;> exact hstore
  · cases h

/-- With a slot to put the byte into, the store swallows its own encoding. -/
theorem runs_lone {k : Fin 31} {p : Fin 5} (hp : p < 3) (j : Fin 7) {s : Core}
    (h6 : s.r 6 = s.r 11) (h0 : Misses (s.r 11) (s.r 0 + 112) 4)
    (h1 : Misses (s.r 11) (s.r 1 + 112) 4) :
    (∀ t, ¬Runs (emit2 (thumb16LdrbImmT1 6 (lo p) (BitVec.ofInt 32 (-(k + 1 : ℕ)))) ++
        armBpfPutReg64 (Loc.slot j).row (Loc.pair 3).row) s t) ∨
      ∃ t, Runs (emit2 (thumb16LdrbImmT1 6 (lo p) (BitVec.ofInt 32 (-(k + 1 : ℕ)))) ++
        armBpfPutReg64 (Loc.slot j).row (Loc.pair 3).row) s t ∧
        val t (.slot j) = val s (.slot j) := by
  have hneg : ∀ k : Fin 31, (BitVec.ofInt 32 (-(k + 1 : ℕ))).toInt = -(k + 1 : ℕ) := by decide
  have hk := k.isLt
  have hwide : isWide (thumb16LdrbImmT1 6 (lo p) (BitVec.ofInt 32 (-(k + 1 : ℕ)))) = true :=
    isWide_ldrb16 (by rw [hneg]; omega) (by rw [hneg]; omega)
  obtain ⟨hput, hdec⟩ := decode_putSlot j
  rw [hput]
  rcases exec_strays (decode_lone k p hp) with hno | ⟨d, hd, hex⟩
  · exact Or.inl fun t => not_runs_wide hwide hno
  · obtain ⟨u, hu, hru, hmu⟩ := hex s h6
    have hrest : ∃ t, Runs [0x6700 ||| BitVec.ofNat 16 (depth j / 4)] u t ∧ t.r = u.r ∧
        ∀ a, InFrame (s.r 11) a → t.mem a = u.mem a := by
      refine ⟨_, runs_emit2 hdec rfl, rfl, fun a ha => ?_⟩
      have hmiss : Misses (s.r 11) (u.r (if j < 3 then 0 else 1) + 112) 4 := by
        split
        · rw [hru 0 (by decide) (by decide)]
          exact h0
        · rw [hru 1 (by decide) (by decide)]
          exact h1
      exact hmiss.storeLE u.mem _ ha
    obtain ⟨t, ht, hrt, hmt⟩ := hrest
    refine Or.inr ⟨t, (Runs.wide hwide hd hu).append ht, val_slot_congr ?_ ?_ j⟩
    · rw [hrt, hru 11 (by decide) (by decide)]
    · intro a ha
      rw [hmt a ha, hmu a ha]

section Byte

variable {ρ : Regs} {d e : BitVec 4} {off : Word}

/-- Where a byte is loaded from the right address. -/
def ByteRight (e : BitVec 4) (off : Word) : Prop :=
  within off 4095 = false ∨ 0 ≤ off.toInt ∨ -255 ≤ off.toInt ∧ (¬InPair e ∨ off.toInt < -31)

instance : Decidable (ByteRight e off) := by
  unfold ByteRight
  infer_instance

theorem not_loads_of_not_runs {code : Code} {a : Word} {n : ℕ} (h : ∀ s t, ¬Runs code s t) :
    ¬LoadsRight code ρ d a n := by
  intro hright
  obtain ⟨s, hs, -⟩ := exists_core ρ (fun _ => 0) (l := []) (by decide)
  obtain ⟨t, ht, -⟩ := hright s hs
  exact h s t ht

theorem ldxCode_byte (d e : Loc) (hnear : isLdstImm off .b = true) :
    ldxCode d e off .b = ((armBpfGetReg32 e.row.lo tmpReg2.lo).1 ++ baseCode d e false off) ++
      (emitLdrbI (loReg (d.core 3)).toNat (baseReg d e false).toNat off ++
        armBpfPutReg64 d.row (Loc.pair (d.core 3)).row) := by
  rw [ldxCode, hnear]
  simp [loadCode]

theorem not_loads_byte_far (h1 : -4095 ≤ off.toInt) (h2 : off.toInt ≤ -256) {a : Word} {n : ℕ} :
    ¬LoadsRight (ldxCode (locOf d) (locOf e) off .b) ρ d a n := by
  refine not_loads_of_not_runs fun s t hrun => ?_
  rw [ldxCode_byte _ _ (within_iff.mpr (by omega) : isLdstImm off .b = true)] at hrun
  obtain ⟨u, hu, -⟩ := runs_base (locOf d) (locOf_not_temp e) false off s
  exact not_runs_ldrb h1 h2 (hu.of_append hrun)

theorem exists_neg_of_short (h1 : -31 ≤ off.toInt) (h2 : off.toInt < 0) :
    ∃ k : Fin 31, off = BitVec.ofInt 32 (-(k + 1 : ℕ)) := by
  refine ⟨⟨(-off.toInt).toNat - 1, by omega⟩, BitVec.ofInt_toInt.symm.trans (congrArg _ ?_)⟩
  show off.toInt = -(((-off.toInt).toNat - 1 + 1 : ℕ) : ℤ)
  omega

theorem emitLdrbI_low {rt rn : Reg} (ht : rt < 8) (hn : rn < 8) (h : within off 31 = true) :
    emitLdrbI rt.toNat rn.toNat off = emit2 (thumb16LdrbImmT1 rt.toNat rn.toNat off) := by
  rw [emitLdrbI, isLow_toNat, isLow_toNat, h, decide_eq_true ht, decide_eq_true hn]
  rfl

/-- Into a pair, the code ends in half an instruction. -/
theorem not_loads_lone_pair {p q : Fin 5} (hd : locOf d = .pair q) (he : locOf e = .pair p)
    (hp : p < 3) (h1 : -31 ≤ off.toInt) (h2 : off.toInt < 0) {a : Word} {n : ℕ} :
    ¬LoadsRight (ldxCode (locOf d) (locOf e) off .b) ρ d a n := by
  have hlow : ∀ p : Fin 5, p < 4 → loReg p < 8 := by decide
  have hrt : loReg ((locOf d).core 3) < 8 := hlow _ (core_lt_four (locOf_not_temp d))
  have hrn : baseReg (locOf d) (locOf e) false < 8 := by
    unfold baseReg
    split
    · decide
    · rw [he]
      exact hlow p (Nat.lt_trans hp (by decide))
  have hput : armBpfPutReg64 (locOf d).row (Loc.pair ((locOf d).core 3)).row = [] := by
    simp [hd, armBpfPutReg64, Loc.core]
  refine not_loads_of_not_runs fun s t hrun => ?_
  rw [ldxCode_byte _ _ (within_iff.mpr (by omega) : isLdstImm off .b = true), hput,
    List.append_nil, emitLdrbI_low hrt hrn (within_iff.mpr (by omega))] at hrun
  obtain ⟨u, hu, -⟩ := runs_base (locOf d) (locOf_not_temp e) false off s
  exact not_runs_half (isWide_ldrb16 h1 h2) (hu.of_append hrun)

/-- Into a slot, nothing is put. -/
theorem not_loads_lone_slot (hd10 : d < 10) {p : Fin 5} {j : Fin 7} (hd : locOf d = .slot j)
    (he : locOf e = .pair p) (hp : p < 3) (h1 : -31 ≤ off.toInt) (h2 : off.toInt < 0) {a : Word} :
    ¬LoadsRight (ldxCode (locOf d) (locOf e) off .b) ρ d a 1 := by
  have hlow : ∀ p : Fin 5, p < 3 → loReg p < 8 := by decide
  have hno : aliased (.slot j) (locOf e) = false := aliased_slot j (locOf_not_temp e)
  have hreg : baseReg (.slot j) (locOf e) false = loReg p := by
    rw [baseReg, hno, he]
    rfl
  have hcode : emitLdrbI (loReg 3).toNat (loReg p).toNat off =
      emit2 (thumb16LdrbImmT1 6 (lo p) off) := by
    rw [emitLdrbI_low (by decide) (hlow p hp) (within_iff.mpr (by omega)), ← lo_eq p]
    rfl
  have hnot : ∀ x : BitVec 8, x ≠ ~~~x := by decide
  intro hright
  -- the byte that is to be loaded differs from what the register holds
  obtain ⟨s, hs, h6, -, hmem⟩ := exists_core_misses ρ (fun _ => ~~~(ρ d).setWidth 8)
    (l := [a, loWord (ρ 0) + 112, hiWord (ρ 0) + 112]) (by simp)
  obtain ⟨t, ht, hland⟩ := hright s hs
  obtain ⟨u, hu, hbase⟩ := runs_base (locOf d) (locOf_not_temp e) false off s
  rw [ldxCode_byte _ _ (within_iff.mpr (by omega) : isLdstImm off .b = true)] at ht
  have htail := hu.of_append ht
  have hother := hbase.other
  have hzero : u.r 0 = loWord (ρ 0) :=
    (hother 0 (by decide) (by decide)).trans (hs.word (by decide) (rfl : locOf 0 = .pair 0) false)
  have hone : u.r 1 = hiWord (ρ 0) :=
    (hother 1 (by decide) (by decide)).trans (hs.word (by decide) (rfl : locOf 0 = .pair 0) true)
  have hfp : u.r 11 = s.r 11 := hother 11 (by decide) (by decide)
  have h6' : u.r 6 = u.r 11 := by rw [hother 6 (by decide) (by decide), h6, hfp]
  have h0 : Misses (u.r 11) (u.r 0 + 112) 4 := by
    rw [hzero, hfp]
    exact (hmem _ (by simp)).1.mono (by decide)
  have h1' : Misses (u.r 11) (u.r 1 + 112) 4 := by
    rw [hone, hfp]
    exact (hmem _ (by simp)).1.mono (by decide)
  obtain ⟨k, hk⟩ := exists_neg_of_short h1 h2
  rw [hd, hreg, show (Loc.slot j).core 3 = 3 from rfl, hcode, hk] at htail
  rcases runs_lone hp j h6' h0 h1' with hnone | ⟨w, hw, hval⟩
  · exact hnone t htail
  · have hold : val u (.slot j) = ρ d := by
      rw [hbase.keeps.same _ (by simp), ← hd, hs.regs d hd10]
    have hbyte := hland.regs d hd10
    rw [htail.unique hw, hd, hval, hold, Function.update_self] at hbyte
    have hnew := congrArg (BitVec.setWidth 8) hbyte
    rw [loadLE_byte _ _ 0 (by decide)] at hnew
    have hstored := (hmem a (by simp)).2 0 (by decide)
    rw [show a + BitVec.ofNat 32 0 = a from BitVec.add_zero a, ← hnew] at hstored
    exact hnot _ hstored

theorem byte_iff (hd : d < 10) (he : e < 10) :
    LoadsRight (ldxCode (locOf d) (locOf e) off .b) ρ d (loWord (ρ e) + off) 1 ↔
      HighClear d (!isLdstImm off .b) (loWord (ρ e) + off) ρ ∧ ByteRight e off := by
  by_cases hright : ByteRight e off
  · rw [byte_direct_iff hd he, and_iff_left hright]
    rcases hright with hfar | h0 | ⟨hlow', hslot⟩
    · exact Or.inr hfar
    · exact Or.inl (Or.inl h0)
    · refine Or.inl (Or.inr ⟨hlow', hslot.imp_left fun hno => ?_⟩)
      obtain ⟨j, hloc⟩ := ((locOf_cases e he).resolve_left fun h => hno h.1).2
      rw [hloc]
      exact (by decide : (8 : Reg) ≤ 8)
  · refine iff_of_false ?_ fun h => hright h.2
    unfold ByteRight at hright
    push Not at hright
    obtain ⟨hnear, hneg, hrest⟩ := hright
    have hnear' := within_iff.mp (by simpa using hnear)
    by_cases hlong : off.toInt ≤ -256
    · exact not_loads_byte_far hnear'.1 hlong
    · obtain ⟨hpair, hshort⟩ := hrest (by omega)
      obtain ⟨-, p, hp, hloc⟩ := (locOf_cases e he).resolve_right fun h => h.1 hpair
      rcases locOf_cases d hd with ⟨-, q, -, hdloc⟩ | ⟨-, j, hdloc⟩
      · exact not_loads_lone_pair hdloc hloc hp hshort hneg
      · exact not_loads_lone_slot hd hdloc hloc hp hshort hneg

end Byte

/-! ### Where the translation is right -/

/-- Where the translation of a load is right. -/
def LoadRight (i : Inst) (ρ : Regs) : Prop :=
  let off : Word := i.offset.signExtend 32
  let a := loWord (ρ i.src) + off
  match i.op with
  | .ldx .dw => -255 ≤ off.toInt ∧ off.toInt ≤ 251 ∨ within off 4091 = false
  | .ldx .w =>
      HighClear i.dst (!isLdstImm off .w) a ρ ∧
        (within off 255 = true ∨ within off 4095 = false)
  | .ldx .h => HighClear i.dst (!isLdstImm off .h) a ρ ∧ HalfRight i.src off ρ
  | .ldx .b => HighClear i.dst (!isLdstImm off .b) a ρ ∧ ByteRight i.src off
  | _ => False

instance (r : BitVec 4) (far : Bool) (a : Word) (ρ : Regs) : Decidable (HighClear r far a ρ) := by
  unfold HighClear
  infer_instance

instance (i : Inst) (ρ : Regs) : Decidable (LoadRight i ρ) := by
  unfold LoadRight
  generalize i.op = o
  rcases o <;> try infer_instance
  rename_i size
  rcases size <;> infer_instance

section Instructions

variable {ρ : Regs} {i : Inst} {size : Size}

theorem refines_ldx_iff {c : Call} (hop : i.op = .ldx size) (hdst : i.dst < 10)
    (hsrc : i.src < 10)
    (hbounds : size = .w ∨ boundsCheck c (address (ρ i.src) i) size.bytes = true) {code : Code} :
    RefinesMem c i code ρ (fun _ => True) ↔
      LoadsRight code ρ i.dst (address (ρ i.src) i) size.bytes := by
  have hfile : i.regsInFile = true := regsInFile_of_lt hdst fun _ => hsrc
  have hexec : ∀ v : State, v.reg = ρ → execInst c i v = .cont (v.setReg i.dst
      (BitVec.ofNat 64 (loadLE v.mem (address (ρ i.src) i) size.bytes))) := by
    rintro v rfl
    simp only [execInst, hfile, hop, execLdx]
    cases size with
    | w => rfl
    | _ =>
        rw [hbounds.resolve_left (by decide)]
        rfl
  constructor
  · intro h s hs
    obtain ⟨v', hv', t, ht, hland⟩ := h s hs trivial ⟨0, ρ, s.mem, 0⟩ rfl rfl
    rw [hexec _ rfl, Next.cont.injEq] at hv'
    subst hv'
    rw [setReg_eq_update] at hland
    exact ⟨t, ht, hland⟩
  · rintro h s hs - v rfl hm
    obtain ⟨t, ht, hland⟩ := h s hs
    refine ⟨_, hexec v rfl, t, ht, ?_⟩
    rwa [setReg_eq_update, hm]

/-- The translation of a load does what the interpreter does exactly where
`LoadRight` says. -/
theorem refines_ldxCode_iff {c : Call} (hop : i.op = .ldx size) (hdst : i.dst < 10)
    (hsrc : i.src < 10)
    (hbounds : size = .w ∨ boundsCheck c (address (ρ i.src) i) size.bytes = true) :
    RefinesMem c i (ldxCode (locOf i.dst) (locOf i.src) (i.offset.signExtend 32) size) ρ
        (fun _ => True) ↔ LoadRight i ρ := by
  rw [refines_ldx_iff hop hdst hsrc hbounds, address_eq]
  simp only [LoadRight, hop]
  cases size with
  | dw => exact dword_iff hdst hsrc
  | w => exact word_iff hdst hsrc
  | h => exact halfword_iff hdst hsrc
  | b => exact byte_iff hdst hsrc

end Instructions

theorem load_right_iff (p : Input) (pass : Pass) (idx pc : ℕ) (c : Call) (ρ : Regs) (size : Size)
    (hop : (p.insts pc).op = .ldx size) (hdst : (p.insts pc).dst < 10)
    (hsrc : (p.insts pc).src < 10)
    (hbounds : size = .w ∨
      boundsCheck c (address (ρ (p.insts pc).src) (p.insts pc)) size.bytes = true) :
    RefinesMem c (p.insts pc) (buildInst p pass idx pc).code ρ (fun _ => True) ↔
      LoadRight (p.insts pc) ρ := by
  simp only [buildInst, built, hop, bpf2a32_eq_row p.behind hdst, bpf2a32_eq_row p.behind hsrc,
    emitLdxReg_code]
  exact refines_ldxCode_iff hop hdst hsrc hbounds

def ldxR1 (size : Size) (dst : BitVec 4) (offset : BitVec 16) : Inst :=
  { opcode := (Opcode.ldx size).byte, dst := dst, src := 1, offset := offset, imm := 0 }

theorem ldxdw_near :
    RefinesMem (singleCall (ldxR1 .dw 2 8)) (ldxR1 .dw 2 8)
      (buildInst (single (ldxR1 .dw 2 8)) genPass 0 0).code (fun _ => 0x20000000)
      (fun _ => True) :=
  (load_right_iff (single (ldxR1 .dw 2 8)) genPass 0 0 (singleCall (ldxR1 .dw 2 8))
    (fun _ => 0x20000000) .dw (opcodeOf_byte (.ldx .dw)) (by decide) (by decide)
    (Or.inr rfl)).mpr (by decide)

theorem ldxh_doubles_offset :
    ¬RefinesMem (singleCall (ldxR1 .h 0 2)) (ldxR1 .h 0 2)
      (buildInst (single (ldxR1 .h 0 2)) genPass 0 0).code (fun _ => 0x20000000)
      (fun _ => True) := by
  have hcode : (buildInst (single (ldxR1 .h 0 2)) genPass 0 0).code =
      ldxCode (locOf 0) (locOf 1) ((2 : BitVec 16).signExtend 32) .h := by
    decide
  rw [hcode]
  exact (refines_ldxCode_iff (i := ldxR1 .h 0 2) (opcodeOf_byte (.ldx .h)) (by decide)
    (by decide) (Or.inr rfl)).not.mpr (by decide)

end RapidPatch.Jit
