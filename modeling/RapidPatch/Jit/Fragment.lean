import RapidPatch.Jit.Shifts
import RapidPatch.Vm.Exec

/-!
The instructions of the fragment, one specification each.

An instruction that computes gets its operands into pairs, works on them
and puts the result back; `Writes` says what becomes of the eBPF registers.
A conditional jump leaves the outcome of its comparison in the flags.
-/

namespace RapidPatch.Jit

open RapidPatch.Vm RapidPatch.Thumb RapidPatch.Support

/-- One location is written; every other one that holds an eBPF register is
as before, and so is the memory outside the frame. -/
structure Writes (l : Loc) (v : BitVec 64) (s t : Core) : Prop where
  fp : t.r 11 = s.r 11
  written : val t l = v
  other : ∀ l', ¬l'.IsTemp → l' ≠ l → val t l' = val s l'
  mem : ∀ a, ¬InFrame (s.r 11) a → t.mem a = s.mem a

theorem Keeps.writes {ls : List Loc} {l : Loc} {v : BitVec 64} {s t : Core} (h : Keeps ls s t)
    (hls : ∀ l' ∈ ls, l'.IsTemp ∨ l' = l) (hval : val t l = v) : Writes l v s t := by
  refine ⟨h.fp, hval, ?_, h.mem⟩
  intro l' htemp hne
  apply h.same
  intro hmem
  exact (hls l' hmem).elim htemp hne

theorem Keeps.aligned {ls : List Loc} {s t : Core} (h : Keeps ls s t) (hfp : aligned (s.r 11)) :
    aligned (t.r 11) := by
  rw [h.fp]
  exact hfp

/-- A register loaded by way of `TMP_REG_1` is in no pair of `TMP_REG_2`. -/
theorem core_ne_four {l : Loc} (hl : ¬l.IsTemp) : l.core 3 ≠ 4 := by
  cases l with
  | pair p =>
      rintro rfl
      exact hl (Or.inr rfl)
  | slot j => exact (by decide : (3 : Fin 5) ≠ 4)

theorem core_isTemp_or (l : Loc) : (Loc.pair (l.core 3)).IsTemp ∨ Loc.pair (l.core 3) = l := by
  cases l with
  | pair p => exact Or.inr rfl
  | slot j => exact Or.inl (Or.inl rfl)

/-- What the translation of an operation on `d` writes beside it is temporary. -/
theorem isTemp_or_of_mem {d l : Loc} (h : l ∈ [.pair 3, .pair 4, .pair (d.core 3), d]) :
    l.IsTemp ∨ l = d := by
  simp only [List.mem_cons, List.not_mem_nil, or_false] at h
  rcases h with rfl | rfl | rfl | rfl
  · exact Or.inl (Or.inl rfl)
  · exact Or.inl (Or.inr rfl)
  · exact core_isTemp_or d
  · exact Or.inr rfl

/-! ### Moves -/

theorem writes_movI64 (l : Loc) (v : BitVec 64) {s : Core} (hfp : aligned (s.r 11)) :
    ∃ t, Runs (emitMovI64 l.row v) s t ∧ Writes l v s t := by
  obtain ⟨t, ht, hval, hk⟩ := runs_emitMovI64 l v hfp
  refine ⟨t, ht, hk.writes ?_ hval⟩
  intro l' hl'
  simp only [List.mem_cons, List.not_mem_nil, or_false] at hl'
  rcases hl' with rfl | rfl
  · exact core_isTemp_or l
  · exact Or.inr rfl

theorem writes_movSeImm64 (l : Loc) (v : BitVec 32) {s : Core} (hfp : aligned (s.r 11)) :
    ∃ t, Runs (emitMovSeImm64 true l.row v) s t ∧ Writes l (v.signExtend 64) s t := by
  obtain ⟨t, ht, hw⟩ := writes_movI64 l (v.signExtend 64) hfp
  refine ⟨t, ?_, hw⟩
  rw [← signExtend_eq] at ht
  exact ht

theorem decode_mov_pair : ∀ (h : Bool) (p q : Fin 5),
    emitMovReg (half h q) (half h p) = emit2 (thumb16MovRegT1 (half h p) (half h q)) ∧
      decode16 (thumb16MovRegT1 (half h p) (half h q)) =
        some (.data (.movReg (halfReg h p) (halfReg h q))) := by
  decide

theorem writes_movReg64 {d e : Loc} {s : Core} (hfp : aligned (s.r 11)) :
    ∃ t, Runs (emitMovReg64 true d.row e.row) s t ∧ Writes d (val s e) s t := by
  cases e with
  | slot k =>
      cases d with
      | slot j =>
          obtain ⟨u, hu, hload, hku⟩ := runs_ldrd 3 k hfp
          obtain ⟨t, ht, hstore, hkt⟩ := runs_strd 3 j (hku.aligned hfp)
          refine ⟨t, ?_, (hku.trans hkt).writes ?_ (by rw [hstore, hload])⟩
          · simpa [emitMovReg64, tmpReg1_eq] using hu.append ht
          · intro l' hl'
            simp only [List.cons_append, List.nil_append, List.mem_cons, List.not_mem_nil,
              or_false] at hl'
            exact hl'.imp_left Or.inl
      | pair p =>
          obtain ⟨t, ht, hload, hkt⟩ := runs_ldrd p k hfp
          refine ⟨t, by simpa [emitMovReg64] using ht, hkt.writes ?_ hload⟩
          intro l' hl'
          exact Or.inr (List.mem_singleton.mp hl')
  | pair q =>
      cases d with
      | slot j =>
          obtain ⟨t, ht, hstore, hkt⟩ := runs_strd q j hfp
          refine ⟨t, by simpa [emitMovReg64] using ht, hkt.writes ?_ hstore⟩
          intro l' hl'
          exact Or.inr (List.mem_singleton.mp hl')
      | pair p =>
          obtain ⟨hlo, hdlo⟩ := decode_mov_pair false p q
          obtain ⟨hhi, hdhi⟩ := decode_mov_pair true p q
          simp only [half, halfReg, if_true, Bool.false_eq_true, if_false] at hlo hdlo hhi hdhi
          let u := s.set (loReg p) (s.r (loReg q))
          let t := u.set (hiReg p) (s.r (hiReg q))
          have h2 : execData u (.movReg (hiReg p) (hiReg q)) = some t := by
            simp [execData, u, t]
          have hkeep : Keeps [.pair p] s t := keeps_pair rfl fun i h1 h2 _ _ => by
            simp [u, t, h1, h2]
          refine ⟨t, ?_, hkeep.writes ?_ ?_⟩
          · have hrun := (runs_emit2 hdlo rfl).append (runs_emit2 hdhi h2)
            simpa [emitMovReg64, hlo, hhi] using hrun
          · intro l' hl'
            exact Or.inr (List.mem_singleton.mp hl')
          · simp [val, u, t]

/-! ### Arithmetic -/

theorem emitAlu32Reg_half (h : Bool) (p q : Fin 5) (is64 hiWord : Bool) (op : AluOp) :
    emitAlu32Reg (half h p) (half h q) is64 hiWord op =
      emitAluOp (half h p) (half h q) is64 hiWord op := by
  cases h <;> simp [emitAlu32Reg, armBpfGetReg32, armBpfPutReg32, half]

/-- Both operands in pairs: the destination by way of `TMP_REG_1`, the
source by way of `TMP_REG_2`. -/
theorem runs_operands {d e : Loc} (hd : ¬d.IsTemp) (he : e ≠ .pair 3) {s : Core}
    (hfp : aligned (s.r 11)) :
    ∃ t, Runs ((armBpfGetReg64 d.row tmpReg1).1 ++ (armBpfGetReg64 e.row tmpReg2).1) s t ∧
      val t (.pair (d.core 3)) = val s d ∧ val t (.pair (e.core 4)) = val s e ∧
      Keeps [.pair 3, .pair 4] s t := by
  obtain ⟨u, hu, hvu, hku⟩ := runs_getReg64 d 3 hfp
  obtain ⟨t, ht, hvt, hkt⟩ := runs_getReg64 e 4 (hku.aligned hfp)
  refine ⟨t, hu.append ht, ?_, ?_, hku.trans hkt⟩
  · rw [hkt.same _ (by simpa using core_ne_four hd), hvu]
  · rw [hvt, hku.same e (by simpa using he)]

/-- An operation that works on the pairs of its operands, in the frame of
`emit_alu64_reg`. -/
theorem writes_alu64Pair {op : AluOp} {f : BitVec 64 → BitVec 64 → BitVec 64} {d e : Loc}
    (hop : Computes (pairOp op (d.core 3) (e.core 4)) (d.core 3) (e.core 4) f) (hd : ¬d.IsTemp)
    (he : e ≠ .pair 3) {s : Core} (hfp : aligned (s.r 11)) :
    ∃ t, Runs (emitAlu64Reg true d.row e.row op) s t ∧ Writes d (f (val s d) (val s e)) s t := by
  obtain ⟨s₁, h₁, hvd, hve, hk₁⟩ := runs_operands hd he hfp
  obtain ⟨s₂, h₂, hv₂, hk₂⟩ := hop s₁
  obtain ⟨t, ht, hput, hkt⟩ := runs_putReg64 d 3 (hk₂.aligned (hk₁.aligned hfp))
  refine ⟨t, ?_, ((hk₁.trans hk₂).trans hkt).writes ?_ (by rw [hput, hv₂, hvd, hve])⟩
  · have hlo := emitAlu32Reg_half false (d.core 3) (e.core 4) true false op
    have hhi := emitAlu32Reg_half true (d.core 3) (e.core 4) true true op
    simp only [half, if_true, Bool.false_eq_true, if_false] at hlo hhi
    have hrun := (h₁.append h₂).append ht
    simpa [emitAlu64Reg, tmpReg1_eq, tmpReg2_eq, getReg64_row, hlo, hhi, pairOp] using hrun
  · intro l' hl'
    exact isTemp_or_of_mem hl'

theorem writes_alu64Reg {op : AluOp} {f : BitVec 64 → BitVec 64 → BitVec 64}
    (hop : ∀ p q, Computes (pairOp op p q) p q f) {d e : Loc} (hd : ¬d.IsTemp)
    (he : e ≠ .pair 3) {s : Core} (hfp : aligned (s.r 11)) :
    ∃ t, Runs (emitAlu64Reg true d.row e.row op) s t ∧ Writes d (f (val s d) (val s e)) s t :=
  writes_alu64Pair (hop _ _) hd he hfp

theorem writes_mulR64 {d e : Loc} (hd : ¬d.IsTemp) (he : e ≠ .pair 3) {s : Core}
    (hfp : aligned (s.r 11)) :
    ∃ t, Runs (emitA32MulR64 d.row e.row) s t ∧ Writes d (val s d * val s e) s t := by
  obtain ⟨s₁, h₁, hvd, hve, hk₁⟩ := runs_operands hd he hfp
  obtain ⟨s₂, h₂, hv₂, hk₂⟩ := runs_mulCode (d.core 3) (e.core 4) s₁
  obtain ⟨t, ht, hput, hkt⟩ := runs_putReg32_pair d 3 s₂
  refine ⟨t, ?_, ((hk₁.trans hk₂).trans hkt).writes ?_ (by rw [hput, hv₂, hvd, hve])⟩
  · have hrun := (h₁.append h₂).append ht
    simpa [emitA32MulR64, tmpReg1_eq, tmpReg2_eq, getReg64_row, mulCode] using hrun
  · intro l' hl'
    exact isTemp_or_of_mem hl'

theorem writes_shift {d : Loc} {code : Code} {f : BitVec 64 → BitVec 64}
    (hcode : ∀ s, ∃ t, Runs code s t ∧
      val t (.pair (d.core 3)) = f (val s (.pair (d.core 3))) ∧
      Keeps [.pair 4, .pair (d.core 3)] s t) {s : Core} (hfp : aligned (s.r 11)) :
    ∃ t, Runs ((armBpfGetReg64 d.row tmpReg1).1 ++ code ++
        armBpfPutReg64 d.row (Loc.pair (d.core 3)).row) s t ∧ Writes d (f (val s d)) s t := by
  obtain ⟨s₁, h₁, hv₁, hk₁⟩ := runs_getReg64 d 3 hfp
  obtain ⟨s₂, h₂, hv₂, hk₂⟩ := hcode s₁
  obtain ⟨t, ht, hput, hkt⟩ := runs_putReg64 d 3 (hk₂.aligned (hk₁.aligned hfp))
  refine ⟨t, (h₁.append h₂).append ht, ((hk₁.trans hk₂).trans hkt).writes ?_
    (by rw [hput, hv₂, hv₁])⟩
  intro l' hl'
  exact isTemp_or_of_mem hl'

theorem writes_rshI64 {d : Loc} {v : BitVec 32} (hv : v.toNat < 64) {s : Core}
    (hfp : aligned (s.r 11)) :
    ∃ t, Runs (emitA32RshI64 d.row (v.setWidth 16)) s t ∧ Writes d (val s d >>> v.toNat) s t := by
  have hcut : (v.setWidth 16).setWidth 32 = BitVec.ofNat 32 v.toNat := by
    apply BitVec.eq_of_toNat_eq
    simp only [BitVec.toNat_setWidth, BitVec.toNat_ofNat]
    omega
  obtain ⟨t, ht, hw⟩ := writes_shift (f := (· >>> v.toNat)) (runs_rshCode (d.core 3) hv) hfp
  refine ⟨t, ?_, hw⟩
  simpa [emitA32RshI64, tmpReg1_eq, tmpReg2_eq, getReg64_row, rshCode, hcut] using ht

theorem writes_arshI64 {d : Loc} {v : BitVec 32} (hv : v.toNat < 64) {s : Core}
    (hfp : aligned (s.r 11)) :
    ∃ t, Runs (emitA32ArshI64 d.row v) s t ∧
      Writes d ((val s d).sshiftRight v.toNat) s t := by
  obtain ⟨t, ht, hw⟩ := writes_shift (f := (·.sshiftRight v.toNat))
    (runs_arshCode (d.core 3) hv) hfp
  refine ⟨t, ?_, hw⟩
  rw [BitVec.ofNat_toNat, BitVec.setWidth_eq] at ht
  simpa [emitA32ArshI64, tmpReg1_eq, tmpReg2_eq, getReg64_row, arshCode] using ht

/-! ### All arithmetic of the fragment -/

theorem Writes.after_temp {l l' : Loc} {v w : BitVec 64} {s t u : Core} (h : Writes l v s t)
    (hl : l.IsTemp) (h' : Writes l' w t u) : Writes l' w s u := by
  refine ⟨h'.fp.trans h.fp, h'.written, ?_, ?_⟩
  · intro m hm hne
    rw [h'.other m hm hne, h.other m hm fun heq => hm (heq ▸ hl)]
  · intro a ha
    rw [h'.mem a (by rwa [h.fp]), h.mem a ha]

/-- The instructions of the fragment: moves and `LDDW`, sums, differences,
products and conjunctions, right shifts by an immediate, the jumps on `>`
and `>=` (signed), `JA` and `EXIT`, over r0 to r9. -/
def Supported (i : Inst) : Prop :=
  (i.op.usesDst → i.dst < 10) ∧ (i.op.usesSrc → i.src < 10) ∧
    match i.op with
    | .alu64 .mov .reg => i.imm = 0
    | .alu64 .rsh .imm | .alu64 .arsh .imm => 0 ≤ i.imm.toInt ∧ i.imm.toInt < 64
    | .alu64 .mov .imm | .alu64 .add _ | .alu64 .sub _ | .alu64 .mul _ | .alu64 .and _ => True
    | .lddw | .jmp .jsgt _ | .jmp .jsge _ | .ja | .exit => True
    | _ => False

theorem writes_imm {d : Loc} (hd : ¬d.IsTemp) (imm : BitVec 32) {code : Code}
    {f : BitVec 64 → BitVec 64 → BitVec 64}
    (hcode : ∀ s, aligned (s.r 11) →
      ∃ t, Runs code s t ∧ Writes d (f (val s d) (val s (.pair 4))) s t)
    {s : Core} (hfp : aligned (s.r 11)) :
    ∃ t, Runs (emitMovSeImm64 true tmpReg2 imm ++ code) s t ∧
      Writes d (f (val s d) (imm.signExtend 64)) s t := by
  have htemp : (Loc.pair 4).IsTemp := Or.inr rfl
  obtain ⟨u, hu, hw⟩ := writes_movSeImm64 (.pair 4) imm hfp
  obtain ⟨t, ht, hw'⟩ := hcode u (by rw [hw.fp]; exact hfp)
  rw [hw.written, hw.other d hd fun heq => hd (heq ▸ htemp)] at hw'
  exact ⟨t, hu.append ht, hw.after_temp htemp hw'⟩

theorem amount_of_range {imm : BitVec 32} (hlo : 0 ≤ imm.toInt) (hhi : imm.toInt < 64) :
    imm.toNat < 64 ∧ (imm.signExtend 64).toNat = imm.toNat := by
  have hnat : imm.toNat < 64 := by
    have hcond := imm.toInt_eq_toNat_cond
    have hlt := imm.isLt
    split at hcond <;> omega
  have hmsb : imm.msb = false := by
    rw [BitVec.msb_eq_toInt, decide_eq_false_iff_not]
    omega
  refine ⟨hnat, ?_⟩
  rw [BitVec.signExtend_eq_setWidth_of_msb_false hmsb, BitVec.toNat_setWidth]
  omega

/-- The 64-bit class: the value the interpreter computes is written to the
destination. -/
theorem writes_alu64 (c : Call) {i : Inst} {op : AluOp} {source : Src} (behind : Row)
    (hop : i.op = .alu64 op source) (hs : Supported i) {s : Core} (hfp : aligned (s.r 11))
    {x : BitVec 64} (hx : source = .reg → val s (locOf i.src) = x) :
    ∃ t v, Runs (buildAlu64 (bpf2a32 behind i.dst) (bpf2a32 behind i.src) i.imm op source).code
        s t ∧ Writes (locOf i.dst) v s t ∧
      alu64 c op source (val s (locOf i.dst)) x i.imm = .value v := by
  obtain ⟨hdst, hsrc, hkind⟩ := hs
  have hd := locOf_not_temp i.dst
  have he : locOf i.src ≠ .pair 3 := fun h => locOf_not_temp i.src (Or.inl h)
  rw [bpf2a32_eq_row behind (hdst (by rw [hop]; rfl))]
  rw [hop] at hsrc hkind
  cases source with
  | imm =>
      -- but for `MOV` and the shifts, the immediate goes through a temporary
      cases op with
      | mov =>
          obtain ⟨t, ht, hw⟩ := writes_movSeImm64 (locOf i.dst) i.imm hfp
          exact ⟨t, _, ht, hw, rfl⟩
      | add =>
          obtain ⟨t, ht, hw⟩ := writes_imm hd i.imm
            (fun s h => writes_alu64Reg computes_add hd (by decide) h) hfp
          exact ⟨t, _, ht, hw, rfl⟩
      | sub =>
          obtain ⟨t, ht, hw⟩ := writes_imm hd i.imm
            (fun s h => writes_alu64Reg computes_sub hd (by decide) h) hfp
          exact ⟨t, _, ht, hw, rfl⟩
      | and =>
          obtain ⟨t, ht, hw⟩ := writes_imm hd i.imm
            (fun s h => writes_alu64Reg computes_and hd (by decide) h) hfp
          exact ⟨t, _, ht, hw, rfl⟩
      | mul =>
          obtain ⟨t, ht, hw⟩ := writes_imm (f := (· * ·)) hd i.imm
            (fun s h => writes_mulR64 hd (by decide) h) hfp
          exact ⟨t, _, ht, hw, rfl⟩
      | rsh =>
          obtain ⟨hlt, hext⟩ := amount_of_range hkind.1 hkind.2
          obtain ⟨t, ht, hw⟩ := writes_rshI64 hlt hfp
          exact ⟨t, _, ht, hw, by simp only [alu64, hext, hlt, if_true]⟩
      | arsh =>
          obtain ⟨hlt, hext⟩ := amount_of_range hkind.1 hkind.2
          obtain ⟨t, ht, hw⟩ := writes_arshI64 hlt hfp
          exact ⟨t, _, ht, hw, by simp only [alu64, hext, hlt, if_true]⟩
      | _ => exact hkind.elim
  | reg =>
      rw [bpf2a32_eq_row behind (hsrc rfl), ← hx rfl]
      cases op with
      | mov =>
          obtain ⟨t, ht, hw⟩ := writes_movReg64 (d := locOf i.dst) (e := locOf i.src) hfp
          have hkind : i.imm = 0 := hkind
          refine ⟨t, _, ?_, hw, rfl⟩
          simpa [buildAlu64, built, hkind] using ht
      | add =>
          obtain ⟨t, ht, hw⟩ := writes_alu64Reg computes_add hd he hfp
          exact ⟨t, _, ht, hw, rfl⟩
      | sub =>
          obtain ⟨t, ht, hw⟩ := writes_alu64Reg computes_sub hd he hfp
          exact ⟨t, _, ht, hw, rfl⟩
      | and =>
          obtain ⟨t, ht, hw⟩ := writes_alu64Reg computes_and hd he hfp
          exact ⟨t, _, ht, hw, rfl⟩
      | mul =>
          obtain ⟨t, ht, hw⟩ := writes_mulR64 hd he hfp
          exact ⟨t, _, ht, hw, rfl⟩
      | _ => exact hkind.elim

/-! ### Conditional jumps -/

structure Same (s t : Core) : Prop where
  fp : t.r 11 = s.r 11
  same : ∀ l, ¬l.IsTemp → val t l = val s l

/-- Where the pairs of the temporaries change, every eBPF register stays. -/
theorem Keeps.toSame {s t : Core} (h : Keeps [.pair 3, .pair 4] s t) : Same s t := by
  refine ⟨h.fp, fun l hl => h.same l ?_⟩
  simp only [List.mem_cons, List.not_mem_nil, or_false]
  exact hl

theorem Keeps.append_nil {ls : List Loc} {s t u : Core} (h : Keeps ls s t) (h' : Keeps [] t u) :
    Keeps ls s u := by
  have hk := h.trans h'
  rwa [List.append_nil] at hk

def operand (source : Src) (v : BitVec 64) (imm : BitVec 32) : BitVec 64 :=
  match source with
  | .imm => imm.signExtend 64
  | .reg => v

/-- The operands of a conditional jump end up in two pairs. -/
theorem runs_jmpOperands {d e : Loc} (hd : ¬d.IsTemp) (he : ¬e.IsTemp) {source : Src}
    {src : Row} (hrow : source = .reg → src = e.row) (imm : BitVec 32) {s : Core}
    (hfp : aligned (s.r 11)) :
    ∃ t p q, Runs (jmpOperands d.row src source imm).1 s t ∧
      (jmpOperands d.row src source imm).2 = (hi p, lo p, hi q, lo q) ∧
      val t (.pair p) = val s d ∧ val t (.pair q) = operand source (val s e) imm ∧
      Keeps [.pair 3, .pair 4] s t := by
  have hd3 : d ≠ .pair 3 := fun h => hd (Or.inl h)
  have hd4 : d ≠ .pair 4 := fun h => hd (Or.inr h)
  have he3 : e ≠ .pair 3 := fun h => he (Or.inl h)
  cases source with
  | imm =>
      obtain ⟨u, hu, hw⟩ := writes_movSeImm64 (.pair 4) imm hfp
      have hfpu : aligned (u.r 11) := by rw [hw.fp]; exact hfp
      obtain ⟨t, ht, hvt, hkt⟩ := runs_getReg64 d 3 hfpu
      refine ⟨t, d.core 3, 4, ?_, ?_, ?_, ?_, hkt.fp.trans hw.fp, ?_, ?_⟩
      · exact hu.append ht
      · simp only [jmpOperands, tmpReg1_eq, tmpReg2_eq, getReg64_row, row_pair_hi, row_pair_lo]
      · rw [hvt, hw.other d hd hd4]
      · rw [hkt.same _ (by simp), hw.written]
        rfl
      · intro l hl
        simp only [List.mem_cons, List.not_mem_nil, or_false, not_or] at hl
        rw [hkt.same l (by simpa using hl.1), hw.other l (not_or.mpr hl) hl.2]
      · intro a ha
        rw [hkt.mem a (by rwa [hw.fp]), hw.mem a ha]
  | reg =>
      rw [hrow rfl]
      have hq : Loc.pair (e.core 4) ≠ .pair 3 := by
        cases e with
        | pair p => exact he3
        | slot j => exact (by decide : Loc.pair 4 ≠ .pair 3)
      obtain ⟨u, hu, hvu, hku⟩ := runs_getReg32_pair e 4 s
      obtain ⟨t, ht, hvt, hkt⟩ := runs_getReg64 d 3 (hku.aligned hfp)
      refine ⟨t, d.core 3, e.core 4, ?_, ?_, ?_, ?_, (hku.trans hkt).mono ?_⟩
      · exact hu.append ht
      · simp only [jmpOperands, tmpReg1_eq, tmpReg2_eq, getReg64_row, row_pair_hi, row_pair_lo,
          getReg32_reg]
      · rw [hvt, hku.same d (by simpa using hd4)]
      · rw [hkt.same _ (by simpa using hq), hvu]
        rfl
      · simp

/-- The condition the branch of a signed jump is taken on. -/
def signedCond : JmpOp → BitVec 4
  | .jsgt => 0b1011
  | _ => 0b1010

theorem jumpCond_signed {op : JmpOp} (hop : op = .jsgt ∨ op = .jsge) :
    jumpCond op = some ((signedCond op).setWidth 32) := by
  rcases hop with rfl | rfl <;> rfl

/-- The comparison of a signed jump: the condition of its branch holds
exactly when the interpreter takes the jump. -/
theorem runs_jmp {op : JmpOp} (hop : op = .jsgt ∨ op = .jsge) {d e : Loc} (hd : ¬d.IsTemp)
    (he : ¬e.IsTemp) {source : Src} {src : Row} (hrow : source = .reg → src = e.row)
    (imm : BitVec 32) {s : Core} (hfp : aligned (s.r 11)) :
    ∃ t, Runs ((jmpOperands d.row src source imm).1 ++
        emitCmpCond (jmpOperands d.row src source imm).2.1
          (jmpOperands d.row src source imm).2.2.1 (jmpOperands d.row src source imm).2.2.2.1
          (jmpOperands d.row src source imm).2.2.2.2 op) s t ∧
      condHolds t (signedCond op) = jmpTaken op source (val s d) (val s e) imm ∧ Same s t := by
  obtain ⟨u, p, q, hu, hregs, hvp, hvq, hku⟩ := runs_jmpOperands hd he hrow imm hfp
  rw [hregs]
  rcases hop with rfl | rfl
  · obtain ⟨t, ht, hflags, hk⟩ := runs_cmp q p u
    refine ⟨t, hu.append ht, ?_, (hku.append_nil hk).toSame⟩
    show (t.n != t.v) = _
    rw [hflags, hvp, hvq]
    cases source <;> rfl
  · obtain ⟨t, ht, hflags, hk⟩ := runs_cmp p q u
    refine ⟨t, hu.append ht, ?_, (hku.append_nil hk).toSame⟩
    have hnot : (t.n == t.v) = !(t.n != t.v) := by cases t.n <;> cases t.v <;> rfl
    show (t.n == t.v) = _
    rw [hnot, hflags, hvp, hvq, ← BitVec.sle_eq_not_slt]
    cases source <;> rfl

end RapidPatch.Jit
